import GoSyntax.Proofs.Grammar.Spelling
import GoSyntax.Proofs.Lexeme.LineFeed
import GoSyntax.Proofs.Lexeme.Lookahead
import GoSyntax.Proofs.Tree.Shape

/-! A source without its comments. What is left is lexed side by side with the source itself: a lexer
on either text gives the same visible tokens. -/
namespace GoSyntax

open Lexeme

/-- What a text without comments has in place of the token's own text: nothing for a line comment, a
blank for a block comment, and a line feed if it goes over several lines. -/
def Token.residue (t : Token) : Text :=
  match t.kind with
  | .comment .line => []
  | .comment .block => if '\n' ∈ t.text then ['\n'] else [' ']
  | _ => t.text

/-- The text of the tokens without comments. -/
def uncommented (ts : List Token) : Text := ts.flatMap fun t => t.leading ++ t.residue

namespace Token

variable {t : Token}

theorem residue_of_not_comment (h : t.kind.isComment = false) : t.residue = t.text := by
  unfold residue
  split
  · rename_i hk
    rw [hk] at h
    cases h
  · rename_i hk
    rw [hk] at h
    cases h
  · rfl

/-- A comment leaves a gap, if anything. -/
theorem gap_of_residue {c : Char} {s : Text} (hk : t.kind.isComment = true)
    (hs : t.kind = .comment .line → ∀ c ∈ s.head?, isGap c = true)
    (hc : c ∈ (t.residue ++ s).head?) : isGap c = true := by
  unfold residue at hc
  split at hc
  · rename_i hline
    exact hs hline c hc
  · split at hc <;> cases hc <;> rfl
  · rename_i h₁ h₂
    cases hkind : t.kind with
    | comment f => cases f <;> first | exact absurd hkind h₁ | exact absurd hkind h₂
    | _ => rw [hkind] at hk; cases hk

end Token

namespace Lexeme

variable {elides : Bool} {c : Char} {cs : Text} {kind : Kind} {v : Option Value}

theorem isSolid_of_read (hc : c ≠ '\n') (hk : kind.isComment = false)
    (h : (read elides (c :: cs)).result = .ok (.token kind v)) : isSolid kind = true := by
  have hend := (kind_read h).1
  have hline := (lineFeed_of_read hc h).1
  cases kind with
  | endOfFile => exact absurd rfl hend
  | comment f => cases hk
  | delimiter d => cases d <;> first | rfl | cases hline
  | _ => rfl

/-- Nothing but a line feed follows a line comment. -/
theorem head_of_lineComment
    (h : (read elides (c :: cs)).result = .ok (.token (.comment .line) v)) :
    ∀ d ∈ ((c :: cs).drop (read elides (c :: cs)).size).head?, d = '\n' := by
  obtain ⟨rest, rfl, hread⟩ := (kind_read h).2.2 rfl
  have hsplit : rest.takeWhile (· != '\n') ++ rest.dropWhile (· != '\n') = rest :=
    List.takeWhile_append_dropWhile
  have hdrop : (c :: '/' :: rest).drop (read elides (c :: '/' :: rest)).size =
      rest.dropWhile (· != '\n') := by
    rw [hread, Comment.line, Reading.size_done, Nat.add_comm, List.drop_succ_cons,
      List.drop_succ_cons]
    exact (congrArg (List.drop _) hsplit.symm).trans List.drop_left
  intro d hd
  rw [hdrop] at hd
  have hstop := List.head?_dropWhile_not (· != '\n') rest
  rw [hd] at hstop
  simpa using hstop

theorem opens_head_of_read {s : Text} {m : Meaning} (h : (read elides s).result = .ok m) :
    ∀ c ∈ s.head?, Opens c := by
  intro c hc
  obtain ⟨cs, rfl⟩ := List.head?_eq_some_iff.1 hc
  exact opens_of_read h

end Lexeme

namespace Lexer

variable {x y : Lexer} {i : Nat} {t : Token} {ts : List Token} {s : Text}

theorem ahead_of_comment {kind : Kind} {v : Option Value}
    (h : x.reading.result = .ok (.token kind v)) (hk : kind.isComment = true) :
    ∃ c cs, x.start.ahead = c :: cs ∧ (read x.elides (c :: cs)).result = .ok (.token kind v) := by
  cases ha : x.start.ahead with
  | nil =>
    rw [reading, ha] at h
    cases h
    cases hel : x.elides <;> rw [hel] at hk <;> cases hk
  | cons c cs =>
    rw [reading, ha] at h
    exact ⟨c, cs, rfl, h⟩

/-- A comment has a text, and behind one that ends with its line nothing but a line feed follows. -/
theorem comment_of_next (hs : Sane x) (ht : x.next.outcome = .ok t) (hk : t.kind.isComment = true) :
    t.text ≠ [] ∧ (t.kind = .comment .line → ∀ c ∈ x.next.after.rest.head?, c = '\n') := by
  have hm := next_move x
  generalize x.next = s at hm ht ⊢
  cases hm with
  | queued hq =>
    cases ht
    rw [(hs t hq).1] at hk
    cases hk
  | blankFault => cases ht
  | lexemeFault => cases ht
  | flaw => cases ht
  | @lexeme meaning hq hc hr =>
    cases meaning with
    | twoDots =>
      cases ht
      cases hk
    | token kind v =>
      cases ht
      obtain ⟨c, cs, ha, hread⟩ := ahead_of_comment hr hk
      refine ⟨?_, ?_⟩
      · have hsize := (kind_read hread).2.1 hk
        rw [← ha] at hsize
        intro hnil
        have hlen := length_lexeme x
        rw [show x.lexeme = [] from hnil] at hlen
        rw [List.length_nil, reading] at hlen
        omega
      · rintro rfl
        have hhead := head_of_lineComment hread
        rw [← ha] at hhead
        exact hhead

/-- What is left behind a place opens as the source does there, or with a gap in place of a
comment. -/
def OpensAlike (s rest : Text) : Prop :=
  ∀ c ∈ s.head?, c ∈ rest.head? ∨ isGap c = true ∧ rest ≠ []

theorem OpensAlike.nil_of_nil (h : OpensAlike s []) : s = [] := by
  cases s with
  | nil => rfl
  | cons c s =>
    rcases h c rfl with hc | hc
    · cases hc
    · exact absurd rfl hc.2

theorem opensAlike_next (hs : Sane x) (h : Tidy i x) (ht : x.next.outcome = .ok t)
    (hrest : OpensAlike s x.next.after.rest) :
    OpensAlike (t.leading ++ t.residue ++ s) x.rest := by
  have hlays := (lays_next h ht).rest
  rw [Token.raw, List.append_assoc] at hlays
  intro c hc
  rw [hlays]
  rw [List.append_assoc] at hc
  by_cases hl : t.leading = []
  · rw [hl, List.nil_append] at hc ⊢
    by_cases hk : t.kind.isComment = true
    · obtain ⟨htext, hline⟩ := comment_of_next hs ht hk
      refine Or.inr ⟨Token.gap_of_residue hk ?_ hc, by simp [htext]⟩
      intro hkind d hd
      rcases hrest d hd with hd | hd
      · rw [hline hkind d hd]
        rfl
      · exact hd.1
    · rw [Bool.not_eq_true] at hk
      rw [Token.residue_of_not_comment hk] at hc
      by_cases htext : t.text = []
      · rw [htext, List.nil_append] at hc ⊢
        exact hrest c hc
      · rw [List.head?_append_of_ne_nil _ htext] at hc ⊢
        exact Or.inl hc
  · rw [List.head?_append_of_ne_nil _ hl] at hc ⊢
    exact Or.inl hc

/-- Along a run, what is left of a source without its comments opens as the source does. -/
theorem Yields.opensAlike (hy : Yields x ts) (hs : Sane x) (h : Tidy i x) :
    OpensAlike (uncommented ts) x.rest := by
  induction hy generalizing i with
  | @last x t ht hk =>
    rw [uncommented, List.flatMap_singleton, ← List.append_nil (_ ++ _)]
    exact opensAlike_next hs h ht (by simp [OpensAlike])
  | @more x t ts ht hk _ ih =>
    exact opensAlike_next hs h ht (ih (sane_next hs) (lays_next h ht).tidy)

/-- The text is what `x` has queued, and behind it opens as what lies ahead of `x`. -/
def Leaves (x : Lexer) (s : Text) : Prop :=
  ∃ s', s = (x.queued.map Token.text).getD [] ++ s' ∧ OpensAlike s' x.cursor.ahead

theorem Leaves.of_queued_none (h : Leaves x s) (hq : x.queued = none) :
    OpensAlike s x.cursor.ahead := by
  obtain ⟨s', rfl, hs'⟩ := h
  simpa [hq] using hs'

theorem Yields.leaves (hy : Yields x ts) (hs : Sane x) (h : Tidy i x) :
    Leaves x (uncommented ts) := by
  cases hq : x.queued with
  | none =>
    refine ⟨uncommented ts, by simp [hq], ?_⟩
    rw [← rest_of_queued_none hq]
    exact hy.opensAlike hs h
  | some q =>
    have hnext : x.next = emit { x with queued := none } q := by rw [Lexer.next, hq]
    cases hy with
    | last ht hk =>
      rw [hnext] at ht
      cases ht
      exact absurd hk (h.queued q hq).2.1
    | @more _ t ts ht hk hr =>
      have hlays := lays_next h ht
      rw [hnext] at ht hr hlays
      cases ht
      refine ⟨uncommented ts, ?_, ?_⟩
      · rw [hq, uncommented, List.flatMap_cons, (h.queued q hq).1,
          Token.residue_of_not_comment (hs q hq).1]
        rfl
      · have hrest := hr.opensAlike (by simp [Sane]) hlays.tidy
        rwa [rest_of_queued_none rfl] at hrest

theorem stop_ahead_of_lexeme_nil (h : x.lexeme = []) : x.stop.ahead = [] := by
  have hsplit := lexeme_append x
  by_contra hne
  have hsize : 1 ≤ x.reading.size := by
    refine one_le_size fun ha => hne ?_
    rw [h, ha] at hsplit
    exact hsplit
  rw [← length_lexeme, h] at hsize
  cases hsize

/-- The next lexeme, if it is no comment, is read again before what is left behind it. -/
theorem read_uncommented {kind : Kind} {v : Option Value}
    (hr : x.reading.result = .ok (.token kind v)) (hk : kind.isComment = false)
    (hs : OpensAlike s x.stop.ahead) :
    read x.elides (x.lexeme ++ s) = .done x.lexeme.length (.token kind v) := by
  have hread : read x.elides (x.lexeme ++ x.stop.ahead) = .done x.lexeme.length (.token kind v) := by
    rw [lexeme_append, length_lexeme]
    exact eq_done rfl hr
  cases hl : x.lexeme with
  | nil =>
    have hstop := stop_ahead_of_lexeme_nil hl
    rw [hstop] at hs
    rw [hstop, hl] at hread
    rw [hs.nil_of_nil]
    exact hread
  | cons c cs =>
    rw [hl] at hread
    by_cases hc : c = '\n'
    · subst hc
      have hlen : 1 = cs.length + 1 := congrArg Reading.size hread
      obtain rfl : cs = [] := List.length_eq_zero_iff.1 (by omega)
      exact hread
    · have hsolid := isSolid_of_read hc hk (congrArg Reading.result hread)
      refine read_before (by simp) hsolid hread fun d hd => ?_
      rcases hs d hd with hd | hd
      · exact Or.inr hd
      · exact Or.inl hd.1

theorem At.skip {elides : Bool} {l : Text} (h : y.At elides (l ++ s)) (hl : Blanks i l)
    (hi : l ++ s ≠ [] → i = 0 → y.cursor.offset = 0 ∧ y.cursor.ahead = l ++ s) : y.At elides s := by
  rcases hl with hl | ⟨hzero, bs, rfl, hbs⟩
  · exact h.blanks hl
  · obtain ⟨ho, ha⟩ := hi (by simp) hzero
    exact ⟨h.queued, h.breaks, h.elides, _, Or.inr ⟨ho, bs, rfl, hbs⟩, ha⟩

theorem advanced_ne_zero (hraw : t.raw ≠ []) : i + t.raw.byteLength ≠ 0 := by
  obtain ⟨c, cs, hc⟩ := List.exists_cons_of_ne_nil hraw
  have hpos := c.utf8Size_pos
  rw [hc, Text.byteLength_cons]
  omega

/-- `u` is seen as `t` is, wherever it stands. -/
def SeenAlike (u t : Token) : Prop :=
  u.kind = t.kind ∧ u.visible?.map Token.shape = t.visible?.map Token.shape

theorem SeenAlike.of_text {u : Token} (hk : u.kind = t.kind) (ht : u.text = t.text)
    (hv : u.value = t.value) : SeenAlike u t := by
  refine ⟨hk, ?_⟩
  unfold Token.visible?
  rw [hk]
  split <;> simp [Token.shape, Token.isInserted, Token.withKind, hk, ht, hv]

theorem SeenAlike.of_lineEnd {u : Token} {elides : Bool} (hk : t.kind = lineEnd elides)
    (hk' : u.kind = lineEnd elides) (ht : t.text ≠ [';']) (ht' : u.text ≠ [';'])
    (hv : u.value = t.value) : SeenAlike u t := by
  refine ⟨hk'.trans hk.symm, ?_⟩
  cases elides with
  | false => simp [Token.visible?, hk, hk', lineEnd]
  | true =>
    simp [Token.visible?, hk, hk', lineEnd, Token.shape, Token.isInserted, Token.withKind, ht, ht', hv]

/-- The lexers have come to the same place in a text, `x` with its comments and `y` without them: `s`
is left to `y`. The line feed that a comment acts as is one for `y`. -/
inductive Mirrors (i : Nat) (x y : Lexer) (s : Text) : Prop
  | idle (hq : x.queued = none) (hy : y.At x.elides s)
    (hi : s ≠ [] → i = 0 → y.cursor.offset = 0 ∧ y.cursor.ahead = s)
  | lineEnd {m : Mark} (hq : x.queued = some (.emptyAt m (lineEnd x.elides)))
    (hy : y.At x.elides ('\n' :: s)) (hi : i ≠ 0)
  | dot {t u : Token} (hq : x.queued = some t) (hy : y.queued = some u)
    (ht : t.kind = .delimiter .dot) (htext : t.text = ['.']) (hu : SeenAlike u t)
    (hb : y.cursor.breaks = []) (ha : s = '.' :: y.cursor.ahead)

section Step

/-- Past a comment `x` goes alone. -/
theorem mirrors_comment {kind : Kind} {v : Option Value} {leading : Text}
    (hk : kind.isComment = true) (hy : y.At x.elides (t.residue ++ s)) (hi : i ≠ 0)
    (ht : (x.filled.produce leading x.lexeme x.start.mark (.token kind v)).outcome = .ok t) :
    Mirrors i (x.filled.produce leading x.lexeme x.start.mark (.token kind v)).after y s := by
  cases ht
  have helides : (x.filled.produce leading x.lexeme x.start.mark (.token kind v)).after.elides =
      x.elides := elides_of_comment hk
  by_cases hb : kind = .comment .block ∧ '\n' ∈ x.lexeme
  · have hqueued : (x.filled.produce leading x.lexeme x.start.mark (.token kind v)).after.queued =
        some (.emptyAt x.stop.mark (Lexeme.lineEnd x.elides)) := queued_of_breaksLine hb
    rw [← helides] at hqueued
    refine .lineEnd hqueued ?_ hi
    rw [helides]
    obtain ⟨rfl, hn⟩ := hb
    simpa [Token.residue, hn] using hy
  · have hqueued : (x.filled.produce leading x.lexeme x.start.mark (.token kind v)).after.queued =
        none := if_neg hb
    refine .idle hqueued ?_ fun _ hzero => absurd hzero hi
    rw [helides]
    cases kind with
    | comment f =>
      cases f with
      | line => exact hy
      | block =>
        have hn : '\n' ∉ x.lexeme := fun hn => hb ⟨rfl, hn⟩
        refine At.blank ?_
        simpa [Token.residue, hn] using hy
    | _ => cases hk

theorem queued_of_not_comment {kind : Kind} {v : Option Value} {leading : Text}
    (h : kind.isComment = false) :
    (x.filled.produce leading x.lexeme x.start.mark (.token kind v)).after.queued = none := by
  refine if_neg ?_
  rintro ⟨rfl, -⟩
  cases h

/-- Any other lexeme is read by both. -/
theorem mirrors_token {kind : Kind} {v : Option Value} {leading : Text} (hk : kind.isComment = false)
    (hr : x.reading.result = .ok (.token kind v)) (hs : OpensAlike s x.stop.ahead)
    (hy : y.At x.elides (x.lexeme ++ s)) (hi : x.lexeme ≠ [] → i ≠ 0)
    (ht : (x.filled.produce leading x.lexeme x.start.mark (.token kind v)).outcome = .ok t) :
    ∃ u, y.next.outcome = .ok u ∧ SeenAlike u t ∧ Mirrors i
      (x.filled.produce leading x.lexeme x.start.mark (.token kind v)).after y.next.after s := by
  cases ht
  have hread := read_uncommented hr hk hs
  obtain ⟨⟨u, hu, hkind, htext, hvalue⟩, hafter⟩ :=
    hy.next (opens_head_of_read (congrArg Reading.result hread)) hread hk
  rw [List.take_left] at htext
  rw [List.drop_left] at hafter
  refine ⟨u, hu, .of_text hkind htext hvalue, ?_⟩
  refine .idle (queued_of_not_comment hk) ?_ ?_
  · have helides : (x.filled.produce leading x.lexeme x.start.mark (.token kind v)).after.elides =
        kind.elidesSemicolon := elides_emit _ _ hk
    rw [helides]
    exact hafter
  · -- Only the end of the source is read without getting on.
    intro hne hzero
    by_cases hl : x.lexeme = []
    · rw [stop_ahead_of_lexeme_nil hl] at hs
      exact absurd hs.nil_of_nil hne
    · exact absurd hzero (hi hl)

/-- So are two dots. -/
theorem mirrors_twoDots {leading : Text} (hr : x.reading.result = .ok .twoDots)
    (hs : OpensAlike s x.stop.ahead) (hy : y.At x.elides ('.' :: '.' :: s))
    (ht : (x.filled.produce leading x.lexeme x.start.mark .twoDots).outcome = .ok t) :
    ∃ u, y.next.outcome = .ok u ∧ SeenAlike u t ∧ Mirrors i
      (x.filled.produce leading x.lexeme x.start.mark .twoDots).after y.next.after ('.' :: s) := by
  have hdots := lexeme_of_twoDots hr
  have hsplit := lexeme_append x
  have hread : x.reading = .done 2 .twoDots := eq_done (by rw [← length_lexeme, hdots]; rfl) hr
  rw [reading, ← hsplit, hdots] at hread
  have hagain : read x.elides ('.' :: '.' :: s) = .done 2 .twoDots :=
    read_twoDots hread fun c hc => (hs c hc).symm.imp_left And.left
  obtain ⟨hnext, hlexeme, hstop⟩ :=
    hy.next_eq (opens_head_of_read (congrArg Reading.result hagain)) hagain
  rw [List.take_succ_cons, List.take_succ_cons, List.take_zero] at hlexeme
  cases ht
  rw [hnext]
  refine ⟨_, rfl, .of_text rfl ?_ rfl, .dot rfl rfl rfl ?_ (.of_text rfl ?_ rfl) hy.breaks ?_⟩
  · simp [hdots, hlexeme]
  · simp [hdots]
  · simp [hdots, hlexeme]
  · rw [produce_cursor, hstop]
    rfl

/-- The line feed that a comment acts as is read as such. -/
theorem mirrors_lineEnd {m : Mark} (hy : y.At x.elides ('\n' :: s)) (hi : i ≠ 0) :
    ∃ u, y.next.outcome = .ok u ∧ SeenAlike u (.emptyAt m (lineEnd x.elides)) ∧
      Mirrors i (emit { x with queued := none } (.emptyAt m (lineEnd x.elides))).after
        y.next.after s := by
  have hread : read x.elides ('\n' :: s) = .done 1 (.token (lineEnd x.elides) none) := rfl
  obtain ⟨⟨u, hu, hkind, htext, hvalue⟩, hafter⟩ := hy.next
    (opens_head_of_read (congrArg Reading.result hread)) hread (lineEnd_sane x.elides).1
  refine ⟨u, hu, .of_lineEnd rfl hkind (by simp [Token.emptyAt]) ?_ hvalue,
    .idle rfl ?_ fun _ hzero => absurd hzero hi⟩
  · rw [htext]
    simp
  · rw [elides_emit _ _ (lineEnd_sane x.elides).1]
    exact hafter

/-- Whatever the next lexeme is, `x` goes past a comment, or `y` reads the lexeme as well. -/
theorem mirrors_produce {meaning : Meaning} {leading : Text} (hr : x.reading.result = .ok meaning)
    (hs : Leaves (x.filled.produce leading x.lexeme x.start.mark meaning).after s)
    (hy : y.At x.elides (t.residue ++ s)) (hi : t.text ≠ [] → i ≠ 0)
    (hcomment : t.kind.isComment = true → t.text ≠ [])
    (ht : (x.filled.produce leading x.lexeme x.start.mark meaning).outcome = .ok t) :
    t.kind.isComment = true ∧
        Mirrors i (x.filled.produce leading x.lexeme x.start.mark meaning).after y s ∨
      ∃ u, y.next.outcome = .ok u ∧ SeenAlike u t ∧ Mirrors i
        (x.filled.produce leading x.lexeme x.start.mark meaning).after y.next.after s := by
  cases meaning with
  | token kind v =>
    have hkind : t.kind = kind := by cases ht; rfl
    have htext : t.text = x.lexeme := by cases ht; rfl
    by_cases hk : t.kind.isComment = true
    · exact Or.inl ⟨hk, mirrors_comment (hkind ▸ hk) hy (hi (hcomment hk)) ht⟩
    · rw [Bool.not_eq_true] at hk
      rw [Token.residue_of_not_comment hk, htext] at hy
      rw [hkind] at hk
      rw [htext] at hi
      have hopens := hs.of_queued_none (queued_of_not_comment hk)
      exact Or.inr (mirrors_token hk hr hopens hy hi ht)
  | twoDots =>
    have hkind : t.kind = .delimiter .dot := by cases ht; rfl
    have hdots := lexeme_of_twoDots hr
    have htext : t.text = ['.'] := by
      cases ht
      simp [hdots]
    obtain ⟨s', rfl, hs'⟩ := hs
    have hsecond : ((x.filled.produce leading x.lexeme x.start.mark .twoDots).after.queued.map
        Token.text).getD [] = ['.'] := by simp [produce, hdots]
    rw [hsecond] at hy ⊢
    rw [Token.residue_of_not_comment (by rw [hkind]; rfl), htext] at hy
    exact Or.inr (mirrors_twoDots hr hs' hy ht)

/-- A step of `x` is one past a comment, or one that `y` takes as well. -/
theorem Mirrors.next (hm : Mirrors i x y (t.leading ++ t.residue ++ s)) (h : Tidy i x)
    (ht : x.next.outcome = .ok t) (hs : Leaves x.next.after s) :
    t.kind.isComment = true ∧ Mirrors (i + t.raw.byteLength) x.next.after y s ∨
      ∃ u, y.next.outcome = .ok u ∧ SeenAlike u t ∧
        Mirrors (i + t.raw.byteLength) x.next.after y.next.after s := by
  cases hm with
  | @lineEnd m hq hy hi =>
    have hnext : x.next = emit { x with queued := none } (.emptyAt m (Lexeme.lineEnd x.elides)) := by
      rw [Lexer.next, hq]
    rw [hnext] at ht ⊢
    cases ht
    rw [Token.residue_of_not_comment (lineEnd_sane x.elides).1] at hy
    exact Or.inr (mirrors_lineEnd hy hi)
  | @dot t' u hq hy hk htext hu hb ha =>
    have hnext : x.next = emit { x with queued := none } t' := by rw [Lexer.next, hq]
    have hnext' : y.next = emit { y with queued := none } u := by rw [Lexer.next, hy]
    rw [hnext] at ht ⊢
    cases ht
    have hraw : t.raw ≠ [] := by simp [Token.raw, htext]
    refine Or.inr ⟨u, by rw [hnext']; rfl, hu, .idle rfl ?_ fun _ hzero =>
      absurd hzero (advanced_ne_zero hraw)⟩
    have hcomment : t.kind.isComment = false := by rw [hk]; rfl
    rw [(h.queued t hq).1, Token.residue_of_not_comment hcomment, htext] at ha
    rw [hnext', elides_emit _ _ hcomment, ← hu.1,
      ← elides_emit { y with queued := none } u (by rw [hu.1, hcomment])]
    exact .of_ahead rfl hb (List.cons.inj ha).2.symm
  | idle hq hy hi =>
    have hblanks := (lays_next h ht).blanks
    rw [List.append_assoc] at hy hi
    have hown := hy.skip hblanks hi
    have hcomment := fun hk => (comment_of_next (x := x) (by simp [Sane, hq]) ht hk).1
    have hmoved : t.text ≠ [] → i + t.raw.byteLength ≠ 0 := by
      intro hne
      refine advanced_ne_zero ?_
      simp [Token.raw, hne]
    have hmove := next_move x
    generalize x.next = step at hmove ht hs ⊢
    cases hmove with
    | queued hq' =>
      rw [hq] at hq'
      cases hq'
    | blankFault => cases ht
    | lexemeFault => cases ht
    | flaw => cases ht
    | lexeme _ _ hr => exact mirrors_produce hr hs hown hmoved hcomment ht

end Step

/-- A lexer at the text without comments gives what is visible of the tokens. -/
theorem Yields.mirrored (hy : Yields x ts) (hs : Sane x) (h : Tidy i x)
    (hm : Mirrors i x y (uncommented ts)) : ∃ us, y.Yields us ∧
      (us.filterMap Token.visible?).map Token.shape =
        (ts.filterMap Token.visible?).map Token.shape := by
  simp only [List.map_filterMap]
  induction hy generalizing i y with
  | @last x t ht hk =>
    have hnil := List.append_eq_nil_iff.1 ((lays_next h ht).last hk).1
    rw [uncommented, List.flatMap_singleton, ← List.append_nil (_ ++ _)] at hm
    rcases hm.next h ht ⟨[], by rw [hnil.1]; rfl, by simp [OpensAlike]⟩ with ⟨hc, -⟩ | ⟨u, hu, hut, -⟩
    · rw [hk] at hc
      cases hc
    · refine ⟨[u], .last hu (hut.1.trans hk), ?_⟩
      simp only [List.filterMap_cons, hut.2]
  | @more x t ts ht hk hr ih =>
    have htidy := (lays_next h ht).tidy
    rcases hm.next h ht (hr.leaves (sane_next hs) htidy) with ⟨hc, hm'⟩ | ⟨u, hu, hut, hm'⟩
    · obtain ⟨us, hus, hseen⟩ := ih (sane_next hs) htidy hm'
      refine ⟨us, hus, ?_⟩
      have hhidden : t.visible? = none := by
        cases hkind : t.kind with
        | comment f => simp [Token.visible?, hkind]
        | _ => rw [hkind] at hc; cases hc
      simp only [List.filterMap_cons, hhidden, Option.map_none, hseen]
    · obtain ⟨us, hus, hseen⟩ := ih (sane_next hs) htidy hm'
      refine ⟨u :: us, .more hu (by rw [hut.1]; exact hk) hus, ?_⟩
      simp only [List.filterMap_cons, hut.2, hseen]

theorem clean_residue (h : '\x00' ∉ t.raw) : '\x00' ∉ t.leading ++ t.residue := by
  rw [Token.raw, List.mem_append, not_or] at h
  rw [List.mem_append, not_or]
  refine ⟨h.1, ?_⟩
  unfold Token.residue
  split
  · simp
  · split <;> decide
  · exact h.2

theorem Yields.clean (hy : Yields x ts) (h : Tidy i x) (hc : '\x00' ∉ x.rest) :
    '\x00' ∉ uncommented ts := by
  induction hy generalizing i with
  | @last x t ht hk =>
    rw [(lays_next h ht).rest, List.mem_append, not_or] at hc
    rw [uncommented, List.flatMap_singleton]
    exact clean_residue hc.1
  | @more x t ts ht hk hr ih =>
    have hlays := lays_next h ht
    rw [hlays.rest, List.mem_append, not_or] at hc
    rw [uncommented, List.flatMap_cons, List.mem_append, not_or]
    exact ⟨clean_residue hc.1, ih hlays.tidy hc.2⟩

/-- A source without its comments is lexed without error, and what is visible of the tokens stays. -/
theorem tokens_uncommented {file : String} {feed : Feed} (hx : ofFeed file feed = .ok x)
    (ht : x.tokens = .ok ts) (file' : String) : ∃ y us,
      ofText file' (uncommented ts) = .ok y ∧ y.tokens = .ok us ∧
        (us.filterMap Token.visible?).map Token.shape =
          (ts.filterMap Token.visible?).map Token.shape := by
  obtain ⟨hfresh, hmark, -⟩ := fresh_of_ofFeed hx
  have hyields := hfresh.yields ht
  have htidy := hfresh.tidy (by rw [Cursor.offset, hmark]; rfl)
  have hclean : '\x00' ∉ uncommented ts := by
    refine hyields.clean htidy ?_
    rw [rest_of_queued_none hfresh.queued]
    exact (sound_of_ofFeed hx).clean.1
  have hmirrors : Mirrors 0 x ⟨⟨uncommented ts, [], .origin file'⟩, false, none, [], 0, false⟩
      (uncommented ts) := by
    refine .idle hfresh.queued ?_ fun _ _ => ⟨rfl, rfl⟩
    rw [hfresh.elides]
    exact at_start file' (uncommented ts)
  obtain ⟨us, hus, hseen⟩ := hyields.mirrored hfresh.sane htidy hmirrors
  exact ⟨_, us, ofText_clean file' hclean, Fresh.tokens ⟨rfl, rfl, rfl, rfl⟩ hus, hseen⟩

end Lexer

end GoSyntax
