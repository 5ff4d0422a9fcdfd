import Mathlib.Tactic.FinCases
import GoSyntax.Proofs.Tiling
import GoSyntax.Proofs.Lexeme.LineFeed

/-! Where lines end and which ends stand for semicolons. One rule, the kind of the nearest token that
is no comment, decides at line feeds, behind comments over several lines and at the end of the source. -/
namespace GoSyntax

/-- Kinds that a statement can end with. -/
inductive Kind.EndsStatement : Kind → Prop
  | identifier : EndsStatement .identifier
  | literal (form : LiteralForm) : EndsStatement (.literal form)
  | keyword {k : Keyword} (h : k ∈ [.breakKw, .continueKw, .fallthroughKw, .returnKw]) :
    EndsStatement (.keyword k)
  | operator {o : Operator} (h : o ∈ [.increment, .decrement]) : EndsStatement (.operator o)
  | delimiter {d : Delimiter} (h : d ∈ [.rparen, .rbracket, .rbrace]) : EndsStatement (.delimiter d)

theorem Kind.endsStatement_iff {k : Kind} : k.EndsStatement ↔ k.elidesSemicolon = true := by
  constructor
  · intro h
    cases h with
    | identifier => rfl
    | literal => rfl
    | keyword h => fin_cases h <;> rfl
    | operator h => fin_cases h <;> rfl
    | delimiter h => fin_cases h <;> rfl
  · intro h
    unfold Kind.elidesSemicolon at h
    split at h
    · exact .identifier
    · exact .literal _
    · exact .keyword (by decide)
    · exact .keyword (by decide)
    · exact .keyword (by decide)
    · exact .keyword (by decide)
    · exact .operator (by decide)
    · exact .operator (by decide)
    · exact .delimiter (by decide)
    · exact .delimiter (by decide)
    · exact .delimiter (by decide)
    · cases h

/-- The last of the tokens that is no comment. -/
def nearest (l : List Token) : Option Token := (l.filter fun t => !t.kind.isComment).getLast?

/-- A statement can end behind the tokens, comments left out. -/
def EndsStatement (l : List Token) : Prop := ∃ t, nearest l = some t ∧ t.kind.EndsStatement

/-- The token is a block comment that goes over a line's end. -/
def Token.BreaksLine (t : Token) : Prop := t.kind = .comment .block ∧ '\n' ∈ t.text

/-- The token ends a line with the byte at offset `k`. -/
def Token.endsLineAt (k : Nat) (t : Token) : Bool := t.kind.isLineEnd && t.span == ⟨k, k + 1⟩

/-- The byte at offset `k` lies in a comment or a raw string. -/
def Hidden (ts : List Token) (k : Nat) : Prop :=
  ∃ t ∈ ts, t.kind.hidesLines = true ∧ t.span.start ≤ k ∧ k < t.span.stop

theorem nearest_append (l : List Token) (t : Token) :
    nearest (l ++ [t]) = if t.kind.isComment then nearest l else some t := by
  cases h : t.kind.isComment <;> simp [nearest, h]

theorem endsStatement_append (l : List Token) (t : Token) :
    EndsStatement (l ++ [t]) ↔
      if t.kind.isComment then EndsStatement l else t.kind.EndsStatement := by
  cases h : t.kind.isComment <;> simp [EndsStatement, nearest_append, h]

section Bytes

variable {bytes : List UInt8} {i j k : Nat} {t : Token} {ts : List Token}

theorem getElem?_slice (h₁ : i ≤ k) (h₂ : k < j) : (slice bytes i j)[k - i]? = bytes[k]? := by
  rw [slice, List.getElem?_drop, Nat.add_sub_cancel' h₁, List.getElem?_take_of_lt h₂]

theorem mem_slice {b : UInt8} (hb : bytes[k]? = some b) (h₁ : i ≤ k) (h₂ : k < j) :
    b ∈ slice bytes i j := by
  rw [← getElem?_slice h₁ h₂] at hb
  exact List.mem_of_getElem? hb

theorem lineFeed_not_mem_skipped (h : Skipped i bytes) : 0x0A ∉ bytes := by
  intro hm
  rcases h with h | ⟨-, blanks, rfl, h⟩
  · rcases h _ hm with h | h | h <;> cases h
  · simp only [List.mem_cons] at hm
    rcases hm with hm | hm | hm | hm
    · cases hm
    · cases hm
    · cases hm
    · rcases h _ hm with h | h | h <;> cases h

/-- A line's end is written as a line feed or not at all, and only what hides lines holds others. -/
def Token.Lined (t : Token) : Prop :=
  if t.kind.isLineEnd then t.text = [] ∨ t.text = ['\n'] else '\n' ∈ t.text → t.kind.hidesLines = true

theorem Cut.length_text (h : Cut bytes i t) : t.text.encode.length = t.span.stop - t.span.start := by
  have := h.within
  rw [h.text, slice, List.length_drop, List.length_take]
  omega

/-- A line feed in the piece that is cut out is hidden by the token, or is all of it. -/
theorem Cut.lineFeed (h : Cut bytes i t) (ht : t.Lined) (hi : i ≤ k) (hk : k < t.span.stop)
    (hb : bytes[k]? = some 0x0A) :
    t.kind.hidesLines = true ∧ t.span.start ≤ k ∨ t.endsLineAt k = true := by
  have hstart : t.span.start ≤ k := by
    apply Nat.le_of_not_lt
    intro hlt
    exact lineFeed_not_mem_skipped h.skipped (mem_slice hb hi hlt)
  have hmem : '\n' ∈ t.text := by
    apply Utf8.lineFeed_of_mem_encode
    rw [h.text]
    exact mem_slice hb hstart hk
  unfold Token.Lined at ht
  split at ht
  · rename_i hend
    have htext : t.text = ['\n'] := by
      rcases ht with ht | ht
      · simp [ht] at hmem
      · exact ht
    have hlen := h.length_text
    have hone : (Text.encode ['\n']).length = 1 := rfl
    rw [htext, hone] at hlen
    have hspan : t.span = ⟨k, k + 1⟩ := by
      have h₁ : t.span.start = k := by omega
      have h₂ : t.span.stop = k + 1 := by omega
      rw [show t.span = ⟨t.span.start, t.span.stop⟩ from rfl, h₁, h₂]
    exact Or.inr (by simp [Token.endsLineAt, hend, hspan])
  · exact Or.inl ⟨ht hmem, hstart⟩

/-- A token that ends a line with a byte ends it with a line feed, and hides nothing. -/
theorem Cut.endsLine (h : Cut bytes i t) (ht : t.Lined) (he : t.endsLineAt k = true) :
    bytes[k]? = some 0x0A ∧ t.kind.hidesLines = false ∧ t.span = ⟨k, k + 1⟩ := by
  rw [Token.endsLineAt, Bool.and_eq_true, beq_iff_eq] at he
  obtain ⟨hend, hspan⟩ := he
  have hlen := h.length_text
  have htext : t.text = ['\n'] := by
    rw [Token.Lined, if_pos hend] at ht
    rcases ht with ht | ht
    · simp [ht, hspan] at hlen
    · exact ht
  have hbytes := h.text
  rw [htext, hspan] at hbytes
  have hk := @getElem?_slice bytes k (k + 1) k (Nat.le_refl k) (Nat.lt_succ_self k)
  rw [← hbytes, Nat.sub_self] at hk
  refine ⟨hk.symm, ?_, hspan⟩
  cases hkind : t.kind with
  | delimiter d => rfl
  | _ => simp [hkind, Kind.isLineEnd] at hend

theorem Tiles.le_start (h : Tiles bytes i ts) : ∀ t ∈ ts, i ≤ t.span.start := by
  induction ts generalizing i with
  | nil => simp
  | cons u ts ih =>
    intro t ht
    rcases List.mem_cons.1 ht with rfl | ht
    · exact h.1.behind
    · have := ih h.2 t ht
      have := h.1.behind
      have := h.1.ordered
      omega

theorem hidden_cons : Hidden (t :: ts) k ↔
    t.kind.hidesLines = true ∧ t.span.start ≤ k ∧ k < t.span.stop ∨ Hidden ts k := by
  simp [Hidden]

/-- From offset `i` on, the tokens end lines at the line feeds that nothing hides, once each. -/
theorem Tiles.lineFeeds (h : Tiles bytes i ts) (hl : ∀ t ∈ ts, t.Lined) (hi : i ≤ k) :
    (bytes[k]? = some 0x0A → ¬Hidden ts k → ts.countP (Token.endsLineAt k) = 1) ∧
      (0 < ts.countP (Token.endsLineAt k) → bytes[k]? = some 0x0A ∧ ¬Hidden ts k) := by
  induction ts generalizing i with
  | nil =>
    obtain rfl : i = bytes.length := h
    have hnone : bytes[k]? = none := List.getElem?_eq_none hi
    simp [hnone]
  | cons t ts ih =>
    obtain ⟨hcut, htiles⟩ := h
    have hlined := hl t List.mem_cons_self
    by_cases hk : k < t.span.stop
    · -- Nothing behind `t` reaches back to `k`.
      have hstart := htiles.le_start
      have hcount : ts.countP (Token.endsLineAt k) = 0 := by
        rw [List.countP_eq_zero]
        intro u hu he
        rw [Token.endsLineAt, Bool.and_eq_true, beq_iff_eq] at he
        have := hstart u hu
        simp only [he.2] at this
        omega
      have hhidden : ¬Hidden ts k := by
        rintro ⟨u, hu, -, hle, -⟩
        have := hstart u hu
        omega
      rw [List.countP_cons, hcount, hidden_cons]
      constructor
      · intro hb hfree
        rcases hcut.lineFeed hlined hi hk hb with hh | he
        · exact absurd (Or.inl ⟨hh.1, hh.2, hk⟩) hfree
        · simp [he]
      · intro hpos
        have he : t.endsLineAt k = true := by
          by_contra hno
          simp [hno] at hpos
        obtain ⟨hb, hh, -⟩ := hcut.endsLine hlined he
        refine ⟨hb, ?_⟩
        simp [hh, hhidden]
    · have he : t.endsLineAt k = false := by
        rw [Bool.eq_false_iff]
        intro he
        have hspan := (hcut.endsLine hlined he).2.2
        rw [hspan] at hk
        exact hk (Nat.lt_succ_self k)
      have hrest := ih htiles (fun u hu => hl u (List.mem_cons_of_mem _ hu)) (Nat.le_of_not_lt hk)
      rw [List.countP_cons, he, hidden_cons]
      simpa [hk] using hrest

end Bytes

namespace Lexer

variable {x : Lexer} {l ts : List Token} {t : Token}

/-- What the tokens `l` that were handed out tell about the lexer `x` behind them: whether a line's end
here is a semicolon, and whether a comment over several lines has just been handed out, so that its
line's end is queued. -/
structure Trails (l : List Token) (x : Lexer) : Prop where
  elides : x.elides = true ↔ EndsStatement l
  idle : x.queued = none → ∀ t, l.getLast? = some t → ¬t.BreaksLine
  queued : ∀ q, x.queued = some q → q.kind = .delimiter .dot ∧ q.text = ['.'] ∨
    q.kind = Lexeme.lineEnd x.elides ∧ q.text = [] ∧ ∃ t, l.getLast? = some t ∧ t.BreaksLine

/-- The tokens that can be handed out from `x`, behind the tokens `l`. -/
inductive Site (l : List Token) (x : Lexer) (t : Token) (y : Lexer) : Prop
  | solid (hend : t.kind.isLineEnd = false) (hlast : t.kind ≠ .endOfFile) (hl : t.Lined)
    (hq : t.BreaksLine → ∃ q, y.queued = some q ∧ q.kind = Lexeme.lineEnd y.elides ∧ q.text = [])
  | lineFeed (hk : t.kind = Lexeme.lineEnd x.elides) (ht : t.text = ['\n'])
  | comment (hk : t.kind = Lexeme.lineEnd x.elides) (ht : t.text = [])
    (hl : ∃ u, l.getLast? = some u ∧ u.BreaksLine)
  | inserted (he : x.elides = true) (hk : t.kind = .delimiter .elidedSemicolon) (ht : t.text = [])
    (hy : y.queued = none ∧ y.elides = false ∧ y.cursor.ahead = [])
  | last (he : x.elides = false) (hk : t.kind = .endOfFile) (ht : t.text = [])

theorem isLineEnd_lineEnd (elides : Bool) : (Lexeme.lineEnd elides).isLineEnd = true := by
  cases elides <;> rfl

theorem lineEnd_eq_elided {elides : Bool} :
    Lexeme.lineEnd elides = .delimiter .elidedSemicolon ↔ elides = true := by
  cases elides <;> simp [Lexeme.lineEnd]

theorem elides_emit_iff (h : x.elides = true ↔ EndsStatement l) (t : Token) :
    (emit x t).after.elides = true ↔ EndsStatement (l ++ [t]) := by
  rw [endsStatement_append]
  cases hc : t.kind.isComment with
  | true => simpa [emit, hc] using h
  | false => simp [emit, hc, Kind.endsStatement_iff]

theorem not_breaksLine_of_kind (h : t.kind.isComment = false) : ¬t.BreaksLine := by
  rintro ⟨hk, -⟩
  rw [hk] at h
  cases h

theorem lined_of_text (hl : t.kind.isLineEnd = false) (h : '\n' ∉ t.text) : t.Lined := by
  rw [Token.Lined, if_neg (by simp [hl])]
  exact fun hn => absurd hn h

theorem site_token {kind : Kind} {v : Option Value} {leading : Text}
    (hr : x.reading.result = .ok (.token kind v))
    (ht : (x.filled.produce leading x.lexeme x.start.mark (.token kind v)).outcome = .ok t) :
    Site l x t (x.filled.produce leading x.lexeme x.start.mark (.token kind v)).after := by
  cases ha : x.start.ahead with
  | nil =>
    have hlexeme : x.lexeme = [] := by simp [lexeme, ha]
    simp only [reading, ha, Lexeme.read, Lexeme.Reading.done, Except.ok.injEq,
      Lexeme.Meaning.token.injEq] at hr
    obtain ⟨rfl, rfl⟩ := hr
    cases ht
    cases he : x.elides with
    | true =>
      refine .inserted he (by simp [Lexeme.sourceEnd]) hlexeme ⟨?_, ?_, ?_⟩
      · simp [produce, queuedBehind, Lexeme.sourceEnd]
      · simp [produce, emit, Lexeme.sourceEnd, Kind.isComment, Kind.elidesSemicolon]
      · simp [produce, stop, ha]
    | false => exact .last he (by simp [Lexeme.sourceEnd]) hlexeme
  | cons c cs =>
    simp only [reading, ha] at hr
    by_cases hc : c = '\n'
    · subst hc
      cases hr
      cases ht
      exact .lineFeed rfl (by simp [lexeme, reading, ha, Lexeme.read])
    · obtain ⟨hend, hhides⟩ := Lexeme.lineFeed_of_read hc hr
      have hlast := (Lexeme.kind_read hr).1
      have hlexeme : x.lexeme = (c :: cs).take (Lexeme.read x.elides (c :: cs)).size := by
        rw [lexeme, reading, ha]
      rw [← hlexeme] at hhides
      cases ht
      refine .solid hend hlast ?_ ?_
      · rw [Token.Lined, if_neg (by simp [hend])]
        exact hhides
      · intro hb
        have hk : kind = .comment .block := hb.1
        refine ⟨_, queued_of_breaksLine hb, ?_, rfl⟩
        rw [elides_of_comment (by rw [hk]; rfl)]
        rfl

theorem trails_token {kind : Kind} {v : Option Value} {leading : Text} (h : Trails l x)
    (ht : (x.filled.produce leading x.lexeme x.start.mark (.token kind v)).outcome = .ok t) :
    Trails (l ++ [t]) (x.filled.produce leading x.lexeme x.start.mark (.token kind v)).after := by
  cases ht
  refine ⟨elides_emit_iff h.elides _, ?_, ?_⟩
  · intro hq u hu hb
    obtain rfl : _ = u := by simpa using hu
    rw [queued_of_breaksLine hb] at hq
    cases hq
  · intro q hq
    by_cases hb : kind = .comment .block ∧ '\n' ∈ x.lexeme
    · rw [queued_of_breaksLine hb] at hq
      cases hq
      refine Or.inr ⟨?_, rfl, _, List.getLast?_concat, hb⟩
      rw [elides_of_comment (by rw [hb.1]; rfl)]
      rfl
    · simp [produce, queuedBehind, hb] at hq

theorem site_twoDots {leading : Text} (h : Trails l x) (hr : x.reading.result = .ok .twoDots)
    (ht : (x.filled.produce leading x.lexeme x.start.mark .twoDots).outcome = .ok t) :
    Site l x t (x.filled.produce leading x.lexeme x.start.mark .twoDots).after ∧
      Trails (l ++ [t]) (x.filled.produce leading x.lexeme x.start.mark .twoDots).after := by
  have hdots := lexeme_of_twoDots hr
  cases ht
  refine ⟨.solid rfl (by simp) (lined_of_text rfl (by simp [hdots])) ?_,
    elides_emit_iff h.elides _, ?_, ?_⟩
  · exact fun hb => absurd hb (not_breaksLine_of_kind rfl)
  · simp [produce]
  · rintro q ⟨⟩
    exact Or.inl ⟨rfl, by simp [hdots]⟩

theorem site_queued (h : Trails l x) (hq : x.queued = some t) :
    Site l x t (emit { x with queued := none } t).after ∧
      Trails (l ++ [t]) (emit { x with queued := none } t).after := by
  have hq' := h.queued t hq
  have hcom : t.kind.isComment = false := by
    rcases hq' with ⟨hk, -⟩ | ⟨hk, -⟩
    · rw [hk]
      rfl
    · rw [hk]
      exact (lineEnd_sane x.elides).1
  have htrails : Trails (l ++ [t]) (emit { x with queued := none } t).after := by
    refine ⟨elides_emit_iff h.elides t, ?_, by simp⟩
    intro _ u hu
    obtain rfl : t = u := by simpa using hu
    exact not_breaksLine_of_kind hcom
  refine ⟨?_, htrails⟩
  rcases hq' with ⟨hk, ht⟩ | ⟨hk, ht, hl⟩
  · refine .solid (by rw [hk]; rfl) (by simp [hk]) (lined_of_text (by rw [hk]; rfl) (by simp [ht])) ?_
    exact fun hb => absurd hb (not_breaksLine_of_kind hcom)
  · exact .comment hk ht hl

/-- A step hands out a token that has its site, and leaves a lexer that the tokens tell about. -/
theorem site_next (h : Trails l x) (ht : x.next.outcome = .ok t) :
    Site l x t x.next.after ∧ Trails (l ++ [t]) x.next.after := by
  have hm := next_move x
  generalize x.next = s at hm ht ⊢
  cases hm with
  | queued hq =>
    cases ht
    exact site_queued h hq
  | blankFault => cases ht
  | lexemeFault => cases ht
  | flaw => cases ht
  | @lexeme meaning hq hc hr =>
    cases meaning with
    | token kind v => exact ⟨site_token hr ht, trails_token h ht⟩
    | twoDots => exact site_twoDots h hr ht

/-- Each token of a run has its site behind those before it. -/
theorem Yields.site (hy : Yields x ts) (h : Trails l x) {a b : List Token} (hts : ts = a ++ t :: b) :
    ∃ y, Trails (l ++ a) y ∧ Site (l ++ a) y t y.next.after ∧ y.next.outcome = .ok t ∧
      (b = [] ∧ t.kind = .endOfFile ∨
        t.kind ≠ .endOfFile ∧ Yields y.next.after b ∧ Trails (l ++ a ++ [t]) y.next.after) := by
  induction hy generalizing l a with
  | @last x u hu hk =>
    obtain ⟨rfl, rfl, rfl⟩ : a = [] ∧ u = t ∧ b = [] := by
      cases a with
      | nil => simpa using hts
      | cons c a => simp at hts
    rw [List.append_nil]
    exact ⟨x, h, (site_next h hu).1, hu, Or.inl ⟨rfl, hk⟩⟩
  | @more x u us hu hk hrest ih =>
    obtain ⟨hsite, htrails⟩ := site_next h hu
    cases a with
    | nil =>
      obtain ⟨rfl, rfl⟩ := List.cons.inj hts
      rw [List.append_nil]
      exact ⟨x, h, hsite, hu, Or.inr ⟨hk, hrest, htrails⟩⟩
    | cons c a =>
      obtain ⟨rfl, rfl⟩ := List.cons.inj hts
      rw [show l ++ u :: a = l ++ [u] ++ a by simp]
      exact ih htrails rfl

theorem Fresh.trails (h : x.Fresh) : Trails [] x :=
  ⟨by simp [h.elides, EndsStatement, nearest], by simp, by simp [h.queued]⟩

end Lexer

/-- Where the tokens of a source end lines, and which of these ends are semicolons. -/
structure EndsLines (bytes : List UInt8) (ts : List Token) : Prop where
  /-- Every line feed outside comments and raw strings ends one line. -/
  lineFeed : ∀ k, bytes[k]? = some 0x0A → ¬Hidden ts k → ts.countP (Token.endsLineAt k) = 1
  /-- A block comment over several lines ends one line, behind it and with empty text. -/
  comment : ∀ l t r, ts = l ++ t :: r → t.BreaksLine → ∃ u r', r = u :: r' ∧
    u.kind.isLineEnd = true ∧ u.text = [] ∧ ∀ v ∈ r'.head?, ¬(v.kind.isLineEnd = true ∧ v.text = [])
  /-- No other lines end, but for a semicolon that is put in before the end of the source. -/
  site : ∀ l t r, ts = l ++ t :: r → t.kind.isLineEnd = true →
    (t.text = ['\n'] ∧ ∃ k, t.span = ⟨k, k + 1⟩ ∧ bytes[k]? = some 0x0A ∧ ¬Hidden ts k) ∨
      t.text = [] ∧ (∃ u, l.getLast? = some u ∧ u.BreaksLine) ∨
        t.text = [] ∧ t.kind = .delimiter .elidedSemicolon ∧ ∃ e, r = [e] ∧ e.kind = .endOfFile
  /-- The end of a line is a semicolon if a statement can end there. -/
  elided : ∀ l t r, ts = l ++ t :: r → t.kind.isLineEnd = true →
    (t.kind = .delimiter .elidedSemicolon ↔ EndsStatement l)
  /-- Before the end of the source no statement is left without its semicolon. -/
  last : ∀ l t r, ts = l ++ t :: r → t.kind = .endOfFile → r = [] ∧ ¬EndsStatement l
  /-- Between two semicolons there is a token that a statement can end with. -/
  apart : ∀ a t b u c, ts = a ++ t :: (b ++ u :: c) → t.kind = .delimiter .elidedSemicolon →
    u.kind = .delimiter .elidedSemicolon → ∃ v ∈ b, v.kind.EndsStatement

theorem Tiles.cut_of_mem {bytes : List UInt8} {i : Nat} {ts : List Token} (h : Tiles bytes i ts)
    {t : Token} (ht : t ∈ ts) : ∃ j, Cut bytes j t := by
  induction ts generalizing i with
  | nil => simp at ht
  | cons u ts ih =>
    rcases List.mem_cons.1 ht with rfl | ht
    · exact ⟨i, h.1⟩
    · exact ih h.2 ht

theorem mem_of_nearest {a b : List Token} {t v : Token} (ht : t.kind.isComment = false)
    (h : nearest (a ++ t :: b) = some v) : v = t ∨ v ∈ b := by
  rw [nearest, List.filter_append, List.filter_cons_of_pos (by simp [ht])] at h
  have hv := List.mem_of_getLast? (List.getLast?_append_cons _ t _ ▸ h)
  rcases List.mem_cons.1 hv with rfl | hv
  · exact Or.inl rfl
  · exact Or.inr (List.mem_of_mem_filter hv)

theorem not_endsStatement_of_isLineEnd {k : Kind} (h : k.isLineEnd = true) :
    k.isComment = false ∧ ¬k.EndsStatement := by
  rw [Kind.endsStatement_iff]
  unfold Kind.isLineEnd at h
  split at h
  · exact ⟨rfl, by decide⟩
  · exact ⟨rfl, by decide⟩
  · cases h

namespace Lexer

variable {x : Lexer} {l ts : List Token} {t : Token}

theorem Site.lined {y : Lexer} (h : Site l x t y) : t.Lined := by
  cases h with
  | solid _ _ hl _ => exact hl
  | lineFeed hk ht =>
    rw [Token.Lined, hk, if_pos (isLineEnd_lineEnd _)]
    exact Or.inr ht
  | comment hk ht _ =>
    rw [Token.Lined, hk, if_pos (isLineEnd_lineEnd _)]
    exact Or.inl ht
  | inserted _ hk ht _ =>
    rw [Token.Lined, hk, if_pos (by rfl)]
    exact Or.inl ht
  | last _ hk ht => exact lined_of_text (by rw [hk]; rfl) (by simp [ht])

theorem Site.elided {y : Lexer} (h : Site l x t y) (hl : Trails l x) (ht : t.kind.isLineEnd = true) :
    t.kind = .delimiter .elidedSemicolon ↔ EndsStatement l := by
  rw [← hl.elides]
  cases h with
  | solid hend _ _ _ =>
    rw [ht] at hend
    cases hend
  | lineFeed hk _ => rw [hk, lineEnd_eq_elided]
  | comment hk _ _ => rw [hk, lineEnd_eq_elided]
  | inserted he hk _ _ => simp [he, hk]
  | last _ hk _ =>
    rw [hk] at ht
    cases ht

theorem Site.last_iff {y : Lexer} (h : Site l x t y) (hl : Trails l x) (ht : t.kind = .endOfFile) :
    ¬EndsStatement l := by
  rw [← hl.elides]
  cases h with
  | solid _ hlast _ _ => exact absurd ht hlast
  | lineFeed hk _ =>
    rw [hk] at ht
    cases hx : x.elides <;> simp [hx, Lexeme.lineEnd] at ht
  | comment hk _ _ =>
    rw [hk] at ht
    cases hx : x.elides <;> simp [hx, Lexeme.lineEnd] at ht
  | inserted _ hk _ _ => simp [hk] at ht
  | last he _ _ => simp [he]

/-- With nothing left to read and no statement open, only the end of the source follows. -/
theorem Yields.eq_last (hy : Yields x ts) (hq : x.queued = none) (he : x.elides = false)
    (ha : x.cursor.ahead = []) : ∃ e, ts = [e] ∧ e.kind = .endOfFile := by
  cases hy with
  | @last _ t _ hk => exact ⟨t, rfl, hk⟩
  | @more _ t _ ht hk _ =>
    refine absurd ?_ hk
    have hm := next_move x
    generalize x.next = s at hm ht
    cases hm with
    | queued h => simp [hq] at h
    | blankFault => cases ht
    | lexemeFault => cases ht
    | flaw => cases ht
    | lexeme _ _ hr =>
      have hstart : x.start.ahead = [] := by simp [start, ha]
      simp only [reading, hstart, Lexeme.read, Lexeme.Reading.done, Except.ok.injEq] at hr
      subst hr
      cases ht
      simp [he, Lexeme.sourceEnd]

theorem Yields.lined (hy : Yields x ts) (h : Trails l x) : ∀ t ∈ ts, t.Lined := by
  intro t ht
  obtain ⟨a, b, hts⟩ := List.append_of_mem ht
  obtain ⟨y, -, hsite, -⟩ := hy.site h hts
  exact hsite.lined

/-- Where a run ends lines without a line feed. -/
theorem Yields.lineEnd (hy : Yields x ts) (h : Trails [] x) {a b : List Token}
    (hts : ts = a ++ t :: b) (ht : t.kind.isLineEnd = true) :
    t.text = ['\n'] ∨ t.text = [] ∧ (∃ u, a.getLast? = some u ∧ u.BreaksLine) ∨
      t.text = [] ∧ t.kind = .delimiter .elidedSemicolon ∧ ∃ e, b = [e] ∧ e.kind = .endOfFile := by
  obtain ⟨y, hl, hsite, -, hrest⟩ := hy.site h hts
  cases hsite with
  | solid hend _ _ _ =>
    rw [ht] at hend
    cases hend
  | lineFeed _ htext => exact Or.inl htext
  | comment _ htext hl => exact Or.inr (Or.inl ⟨htext, hl⟩)
  | inserted _ hk htext hdone =>
    refine Or.inr (Or.inr ⟨htext, hk, ?_⟩)
    rcases hrest with ⟨-, hlast⟩ | ⟨-, hyields, -⟩
    · rw [hk] at hlast
      cases hlast
    · exact hyields.eq_last hdone.1 hdone.2.1 hdone.2.2
  | last _ hk _ =>
    rw [hk] at ht
    cases ht

theorem outcome_of_queued (h : x.queued = some t) : x.next.outcome = .ok t := by
  simp [next, h]

/-- Behind a comment over several lines its line's end is handed out. -/
theorem Yields.behindComment (hy : Yields x ts) (h : Trails [] x) {a b : List Token}
    (hts : ts = a ++ t :: b) (ht : t.BreaksLine) :
    ∃ u b', b = u :: b' ∧ u.kind.isLineEnd = true ∧ u.text = [] := by
  obtain ⟨y, -, hsite, -, hrest⟩ := hy.site h hts
  have hqueued : ∃ q, y.next.after.queued = some q ∧
      q.kind = Lexeme.lineEnd y.next.after.elides ∧ q.text = [] := by
    have hk := ht.1
    cases hsite with
    | solid _ _ _ hq => exact hq ht
    | lineFeed hk' _ => cases hx : y.elides <;> simp [hk', hx, Lexeme.lineEnd] at hk
    | comment hk' _ _ => cases hx : y.elides <;> simp [hk', hx, Lexeme.lineEnd] at hk
    | inserted _ hk' _ _ => simp [hk'] at hk
    | last _ hk' _ => simp [hk'] at hk
  obtain ⟨q, hq, hkind, htext⟩ := hqueued
  rcases hrest with ⟨-, hlast⟩ | ⟨-, hyields, -⟩
  · rw [ht.1] at hlast
    cases hlast
  · have hnext := outcome_of_queued hq
    have hend : q.kind.isLineEnd = true := by
      rw [hkind]
      exact isLineEnd_lineEnd _
    cases hyields with
    | @last _ u hu _ =>
      obtain rfl : q = u := Except.ok.inj (hnext.symm.trans hu)
      exact ⟨q, [], rfl, hend, htext⟩
    | @more _ u us hu _ _ =>
      obtain rfl : q = u := Except.ok.inj (hnext.symm.trans hu)
      exact ⟨q, us, rfl, hend, htext⟩

theorem Yields.elided (hy : Yields x ts) (h : Trails [] x) {a b : List Token}
    (hts : ts = a ++ t :: b) (ht : t.kind.isLineEnd = true) :
    t.kind = .delimiter .elidedSemicolon ↔ EndsStatement a := by
  obtain ⟨y, hl, hsite, -⟩ := hy.site h hts
  exact hsite.elided hl ht

theorem Yields.comment (hy : Yields x ts) (h : Trails [] x) {a b : List Token}
    (hts : ts = a ++ t :: b) (ht : t.BreaksLine) :
    ∃ u b', b = u :: b' ∧ u.kind.isLineEnd = true ∧ u.text = [] ∧
      ∀ v ∈ b'.head?, ¬(v.kind.isLineEnd = true ∧ v.text = []) := by
  obtain ⟨u, b', rfl, hend, htext⟩ := hy.behindComment h hts ht
  refine ⟨u, b', rfl, hend, htext, ?_⟩
  rintro v hv ⟨hvend, hvtext⟩
  obtain ⟨b', rfl⟩ := List.head?_eq_some_iff.1 hv
  have hts' : ts = (a ++ [t] ++ [u]) ++ v :: b' := by simp [hts]
  have hu := not_endsStatement_of_isLineEnd hend
  rcases hy.lineEnd h hts' hvend with hn | ⟨-, w, hw, hb⟩ | ⟨-, hk, -⟩
  · simp [hvtext] at hn
  · obtain rfl : u = w := by simpa using hw
    exact not_breaksLine_of_kind hu.1 hb
  · have hends := (hy.elided h hts' hvend).1 hk
    rw [endsStatement_append, hu.1] at hends
    exact hu.2 (by simpa using hends)

theorem Yields.apart (hy : Yields x ts) (h : Trails [] x) {a b c : List Token} {u : Token}
    (hts : ts = a ++ t :: (b ++ u :: c)) (ht : t.kind = .delimiter .elidedSemicolon)
    (hu : u.kind = .delimiter .elidedSemicolon) : ∃ v ∈ b, v.kind.EndsStatement := by
  have hts' : ts = (a ++ t :: b) ++ u :: c := by simp [hts]
  obtain ⟨v, hv, hends⟩ := (hy.elided h hts' (by rw [hu]; rfl)).1 hu
  have hline := @not_endsStatement_of_isLineEnd t.kind (by rw [ht]; rfl)
  rcases mem_of_nearest hline.1 hv with rfl | hb
  · exact absurd hends hline.2
  · exact ⟨v, hb, hends⟩

/-- A run that tiles a source ends its lines as it should. -/
theorem Yields.endsLines {bytes : List UInt8} (hy : Yields x ts) (h : Trails [] x)
    (htiles : Tiles bytes 0 ts) : EndsLines bytes ts := by
  have hlined := hy.lined h
  refine ⟨fun k => (htiles.lineFeeds hlined (Nat.zero_le k)).1, fun l t r => hy.comment h, ?_,
    fun l t r => hy.elided h, ?_, fun a t b u c => hy.apart h⟩
  · intro l t r hts ht
    have hmem : t ∈ ts := by simp [hts]
    rcases hy.lineEnd h hts ht with hn | hc | hi
    · refine Or.inl ⟨hn, ?_⟩
      obtain ⟨j, hcut⟩ := htiles.cut_of_mem hmem
      have hlen := hcut.length_text
      have hone : (Text.encode ['\n']).length = 1 := rfl
      rw [hn, hone] at hlen
      have hspan : t.span = ⟨t.span.start, t.span.start + 1⟩ := by
        have hstop : t.span.stop = t.span.start + 1 := by omega
        rw [← hstop]
      have hat : t.endsLineAt t.span.start = true := by
        rw [Token.endsLineAt, ht, ← hspan]
        simp
      have hcount := List.countP_pos_iff.2 ⟨t, hmem, hat⟩
      exact ⟨t.span.start, hspan, (htiles.lineFeeds hlined (Nat.zero_le _)).2 hcount⟩
    · exact Or.inr (Or.inl hc)
    · exact Or.inr (Or.inr hi)
  · intro l t r hts ht
    obtain ⟨y, hl, hsite, -, hrest⟩ := hy.site h hts
    refine ⟨?_, hsite.last_iff hl ht⟩
    rcases hrest with ⟨hr, -⟩ | ⟨hne, -⟩
    · exact hr
    · exact absurd ht hne

/-- A run over a whole source tiles the bytes of the source. -/
theorem Fresh.tiles {file : String} {bytes : List UInt8} (h : x.Fresh) (hy : Yields x ts)
    (hmark : x.cursor.mark = .origin file) (hlen : bytes.length < counterMax)
    (hsplit : (x.cursor.ahead, x.cursor.breaks) = Break.split (Utf8.decode (bytes.map .ok))) :
    Tiles bytes 0 ts := by
  have htidy : Tidy 0 x := h.tidy (by rw [Cursor.offset, hmark]; rfl)
  have hnil := Break.split_nil ((congrArg Prod.snd hsplit).symm.trans (hy.breaks_nil htidy))
  rw [← hsplit] at hnil
  have hencode := Utf8.encode_of_decode hnil
  rw [← hencode] at hlen ⊢
  rw [Text.length_encode] at hlen
  exact hy.tiles [] htidy (rest_of_queued_none h.queued) rfl hlen

end Lexer

/-- Lines end at line feeds outside comments and raw strings, and behind comments over several lines,
once each; the nearest token that is no comment tells whether the end of a line, or of the source,
puts in a semicolon. -/
theorem semicolons_exact {file : String} {feed : Feed} {bytes : List UInt8} {x : Lexer}
    {ts : List Token} (hf : feed.octets = bytes.map .ok) (hlen : bytes.length < counterMax)
    (hx : Lexer.ofFeed file feed = .ok x) (ht : x.tokens = .ok ts) : EndsLines bytes ts := by
  obtain ⟨hfresh, hmark, hsplit⟩ := Lexer.fresh_of_ofFeed hx
  rw [hf] at hsplit
  have hy := hfresh.yields ht
  exact hy.endsLines hfresh.trails (hfresh.tiles hy hmark hlen hsplit)

/-- A name, a comment over two lines, a line feed in a raw string and one behind it: a semicolon for
the comment, one for the last line feed, and none before the end of the source. -/
theorem semicolons_exact_comment :
    ∃ ts : List Token,
      ts.map Token.kind = [.identifier, .comment .block, .delimiter .elidedSemicolon,
        .literal .rawString, .delimiter .elidedSemicolon, .endOfFile] ∧
      EndsLines [0x61, 0x2F, 0x2A, 0x0A, 0x2A, 0x2F, 0x60, 0x0A, 0x60, 0x0A] ts := by
  obtain ⟨x, hx⟩ : ∃ x, Lexer.ofFeed "a.go" (.ofBytes
      [0x61, 0x2F, 0x2A, 0x0A, 0x2A, 0x2F, 0x60, 0x0A, 0x60, 0x0A]) = .ok x := ⟨_, rfl⟩
  have hts : ∃ ts, x.tokens = .ok ts ∧
      ts.map Token.kind = [.identifier, .comment .block, .delimiter .elidedSemicolon,
        .literal .rawString, .delimiter .elidedSemicolon, .endOfFile] := by
    cases hx
    exact ⟨_, rfl, rfl⟩
  obtain ⟨ts, hts, hkinds⟩ := hts
  exact ⟨ts, hkinds, semicolons_exact (Feed.octets_ofBytes _) (by decide) hx hts⟩

end GoSyntax
