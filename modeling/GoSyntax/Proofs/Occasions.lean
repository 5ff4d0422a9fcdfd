import GoSyntax.Proofs.Semicolons
import GoSyntax.Proofs.Grammar.Takes
import GoSyntax.Proofs.Grammar.Composed

/-! What gives occasion to a semicolon that is not written, and how the errors speak of it that find
it in view. The occasion is no part of the token; an error infers it from the token's text and from
whether anything is left behind it. -/
namespace GoSyntax

namespace Lexer

/-- What a semicolon that is not written stands for. -/
inductive Occasion
  | lineFeed
  /-- A block comment that holds a line feed. -/
  | comment
  /-- The end of the source. -/
  | sourceEnd
  deriving DecidableEq

/-- From `x` the tokens are handed out one by one, up to `y`. -/
inductive Hands : Lexer → List Token → Lexer → Prop
  | nil {x : Lexer} : Hands x [] x
  | cons {x y : Lexer} {t : Token} {l : List Token} (h : x.next.outcome = .ok t)
    (hr : Hands x.next.after l y) : Hands x (t :: l) y

/-- The last of the tokens goes over a line's end. -/
def AtBreak (l : List Token) : Prop := ∃ u, l.getLast? = some u ∧ u.BreaksLine

/-- What gives occasion to a semicolon that is handed out next at `y`, behind the tokens `l`: the
comment that was the last of them, or else what follows blanks. -/
inductive PutIn (l : List Token) (y : Lexer) : Occasion → Prop
  | lineFeed {blanks rest : Text} (hl : ¬AtBreak l) (hb : Blanks y.cursor.offset blanks)
    (h : y.rest = blanks ++ '\n' :: rest) : PutIn l y .lineFeed
  | comment (hl : AtBreak l) : PutIn l y .comment
  | sourceEnd (hl : ¬AtBreak l) (hb : Blanks y.cursor.offset y.rest) (h : y.cursor.breaks = []) :
    PutIn l y .sourceEnd

variable {x y : Lexer} {l : List Token} {t : Token} {i : Nat} {o o' : Occasion}

theorem lineFeed_not_mem_blanks {s : Text} (h : Blanks i s) : '\n' ∉ s := by
  have hblank : ∀ s : Text, (∀ c ∈ s, isBlank c = true) → '\n' ∉ s := by
    intro s hs hm
    exact absurd (hs _ hm) (by decide)
  rcases h with h | ⟨-, blanks, rfl, h⟩
  · exact hblank s h
  · simp only [List.mem_cons, not_or]
    exact ⟨by decide, hblank blanks h⟩

theorem PutIn.unique (h : PutIn l y o) (h' : PutIn l y o') : o = o' := by
  cases h with
  | lineFeed hl hb h =>
    cases h' with
    | lineFeed => rfl
    | comment hl' => exact absurd hl' hl
    | sourceEnd _ hb' _ => exact absurd (by simp [h]) (lineFeed_not_mem_blanks hb')
  | comment hl =>
    cases h' with
    | lineFeed hl' => exact absurd hl hl'
    | comment => rfl
    | sourceEnd hl' => exact absurd hl hl'
  | sourceEnd hl hb h =>
    cases h' with
    | lineFeed _ _ h' => exact absurd (by simp [h']) (lineFeed_not_mem_blanks hb)
    | comment hl' => exact absurd hl' hl
    | sourceEnd => rfl

/-- What holds at first and is kept by every token holds wherever tokens lead. -/
theorem Hands.reaches {P : List Token → Lexer → Prop}
    (hstep : ∀ l y t, P l y → y.next.outcome = .ok t → P (l ++ [t]) y.next.after)
    (h : Hands x l y) {before : List Token} (hx : P before x) : P (before ++ l) y := by
  induction h generalizing before with
  | nil => rwa [List.append_nil]
  | @cons x y t l ht _ ih =>
    have hy := ih (hstep before x t hx ht)
    rwa [List.append_assoc] at hy

/-- Behind the tokens that lead there, a place is as they leave it. -/
theorem Fresh.hands (hf : x.Fresh) (hm : x.cursor.offset = 0) (h : Hands x l y) :
    Trails l y ∧ ∃ i, Tidy i y := by
  refine h.reaches (P := fun l y => Trails l y ∧ ∃ i, Tidy i y) ?_ ⟨hf.trails, 0, hf.tidy hm⟩
  rintro l y t ⟨hl, i, hi⟩ ht
  exact ⟨(site_next hl ht).2, _, (lays_next hi ht).tidy⟩

theorem Hands.sound (h : Hands x l y) (hx : x.Sound) : y.Sound := by
  induction h with
  | nil => exact hx
  | cons _ _ ih => exact ih (sound_next hx).1

/-- A token without text that is not queued is read where only blanks are left. -/
theorem breaks_of_text_nil (hq : y.queued = none) (ht : y.next.outcome = .ok t) (hn : t.text = []) :
    y.cursor.breaks = [] := by
  have hm := next_move y
  generalize y.next = s at hm ht
  cases hm with
  | queued h => simp [hq] at h
  | blankFault => cases ht
  | lexemeFault => cases ht
  | flaw => cases ht
  | @lexeme meaning _ hc hr =>
    cases meaning with
    | token kind v =>
      cases ht
      have hlexeme : y.lexeme = [] := hn
      refine hc.breaks_nil (Classical.byContradiction fun ha => ?_)
      have hsize := one_le_size ha
      rw [← length_lexeme, hlexeme] at hsize
      cases hsize
    | twoDots =>
      cases ht
      have htake : y.lexeme.take 1 = [] := hn
      rw [lexeme_of_twoDots hr] at htake
      cases htake

/-- Where a semicolon that is not written is handed out there is an occasion to it. Its text or what
is left behind it tells that a line ends there, unless a comment that ends one is the end of the
source as well. -/
theorem occasion_of_elided (hl : Trails l y) (hi : Tidy i y) (ht : y.next.outcome = .ok t)
    (hk : t.kind = .delimiter .elidedSemicolon) :
    ∃ o, PutIn l y o ∧ ('\n' ∈ t.raw ∨ y.next.after.exhausted = false ↔
      o = .lineFeed ∨ o = .comment ∧ y.rest ≠ []) := by
  cases hq : y.queued with
  | some q =>
    have hnext : y.next = emit { y with queued := none } q := by simp [next, hq]
    obtain rfl : q = t := by
      rw [hnext] at ht
      exact Except.ok.inj ht
    rcases hl.queued q hq with ⟨hdot, -⟩ | ⟨-, htext, hbreak⟩
    · rw [hk] at hdot
      cases hdot
    · refine ⟨.comment, .comment hbreak, ?_⟩
      have hraw : q.raw = [] := by rw [Token.raw, (hi.queued q hq).1, htext]; rfl
      have hrest : y.rest = y.cursor.ahead := by simp [Lexer.rest, hq, htext]
      rw [hraw, hrest, hnext]
      simp [exhausted, Cursor.atEnd, emit]
  | none =>
    have hbreak : ¬AtBreak l := by
      rintro ⟨u, hu, hb⟩
      exact hl.idle hq u hu hb
    have hlays := lays_next hi ht
    have hblanks : Blanks y.cursor.offset t.leading := by
      rw [hi.idle hq]
      exact hlays.blanks
    have hrest := hlays.rest
    rw [Token.raw] at hrest ⊢
    cases (site_next hl ht).1 with
    | solid hend =>
      rw [hk] at hend
      cases hend
    | lineFeed _ htext =>
      rw [htext, List.append_assoc] at hrest
      exact ⟨.lineFeed, .lineFeed hbreak hblanks hrest, by simp [htext]⟩
    | comment _ _ hl => exact absurd hl hbreak
    | inserted _ _ htext hy =>
      obtain ⟨hqueued, -, hahead⟩ := hy
      rw [htext, List.append_nil, rest_of_queued_none hqueued, hahead, List.append_nil] at hrest
      refine ⟨.sourceEnd, .sourceEnd hbreak (by rwa [hrest]) (breaks_of_text_nil hq ht htext), ?_⟩
      have hn := lineFeed_not_mem_blanks hlays.blanks
      simp [htext, hn, exhausted, Cursor.atEnd, hqueued, hahead]
    | last _ hk' _ =>
      rw [hk] at hk'
      cases hk'

end Lexer

/-- A semicolon that is seen but not written is one that the lexer has put in. -/
theorem Token.elided_of_visible {t v : Token} (hg : t.Genuine) (hv : t.visible? = some v)
    (hk : v.kind = .delimiter .semicolon) (ht : v.text ≠ [';']) :
    t.kind = .delimiter .elidedSemicolon ∧ v = t.withKind (.delimiter .semicolon) := by
  unfold Token.visible? at hv
  split at hv
  · cases hv
  · cases hv
  · rename_i h
    exact ⟨h, (Option.some.inj hv).symm⟩
  · obtain rfl := Option.some.inj hv
    rcases hg with ⟨-, hsolid⟩ | hstands
    · rw [hk] at hsolid
      cases hsolid
    · have htext : t.text = (Word.fixed t.kind).text :=
        congrArg Word.text (hstands.eq_fixed (by rw [hk]; rfl))
      rw [hk] at htext
      exact absurd htext ht

namespace Arrival

theorem group_cons (passed : List Token) (s : Step) (steps : List Step) :
    group passed (s :: steps) =
      match s.outcome with
      | .error e => ⟨passed.reverse, .error e, s.after.exhausted⟩ :: group [] steps
      | .ok t =>
        match t.visible? with
        | some v => ⟨(t :: passed).reverse, .ok v, s.after.exhausted⟩ :: group [] steps
        | none => group (t :: passed) steps := by
  obtain ⟨outcome, after⟩ := s
  cases outcome <;> rfl

/-- Behind arrivals that are no errors stands a token that the lexer hands out, and what is known of
the lexer behind it. -/
theorem handed_of_group {x : Lexer} {n : Nat} {passed : List Token} {seen ahead : List Arrival}
    {a : Arrival} {v : Token} (h : group passed (x.drainFor n) = seen ++ a :: ahead)
    (hseen : ∀ b ∈ seen, ∃ t, b.outcome = .ok t) (ha : a.outcome = .ok v) :
    ∃ l t y, x.Hands l y ∧ y.next.outcome = .ok t ∧ t.visible? = some v ∧
      a.drained = y.next.after.exhausted := by
  induction n generalizing x passed seen with
  | zero => simp [Lexer.drainFor, group] at h
  | succ n ih =>
    obtain ⟨steps, hdrain, hsteps⟩ : ∃ steps, x.drainFor (n + 1) = x.next :: steps ∧
        (steps = [] ∨ steps = x.next.after.drainFor n) := by
      rw [Lexer.drainFor]
      split
      · exact ⟨[], rfl, Or.inl rfl⟩
      · exact ⟨_, rfl, Or.inr rfl⟩
    rw [hdrain, group_cons] at h
    have hmore : ∀ {u passed seen}, x.next.outcome = .ok u →
        group passed steps = seen ++ a :: ahead → (∀ b ∈ seen, ∃ t, b.outcome = .ok t) →
        ∃ l t y, x.Hands l y ∧ y.next.outcome = .ok t ∧ t.visible? = some v ∧
          a.drained = y.next.after.exhausted := by
      intro u passed seen hu hg hseen
      rcases hsteps with rfl | rfl
      · simp [group] at hg
      · obtain ⟨l, t, y, hhands, hrun⟩ := ih hg hseen
        exact ⟨u :: l, t, y, .cons hu hhands, hrun⟩
    cases ho : x.next.outcome with
    | error e =>
      rw [ho] at h
      cases seen with
      | nil =>
        cases h
        cases ha
      | cons b seen =>
        obtain ⟨t, hb⟩ := hseen b List.mem_cons_self
        rw [← (List.cons.inj h).1] at hb
        cases hb
    | ok t =>
      rw [ho] at h
      dsimp only at h
      cases hv : t.visible? with
      | none =>
        rw [hv] at h
        exact hmore ho h hseen
      | some w =>
        rw [hv] at h
        cases seen with
        | nil =>
          cases h
          cases ha
          exact ⟨[], t, x, .nil, ho, hv, rfl⟩
        | cons b seen =>
          exact hmore ho (List.cons.inj h).2 fun c hc => hseen c (List.mem_cons_of_mem _ hc)

end Arrival

namespace Parser

/-- The parser has taken in arrivals one by one. The last of them is in view with what was left
behind it, unless the end of the source has been in view before. -/
def Follows (arrivals : List Arrival) (p : Parser) : Prop :=
  (∃ seen a, arrivals = seen ++ a :: p.ahead ∧ (∀ b ∈ seen, ∃ t, b.outcome = .ok t) ∧
    a.outcome = .ok p.peek ∧ a.drained = p.drained) ∨ p.ahead = [] ∧ p.peek.kind = .endOfFile

theorem follows_ofArrivals {limit : Nat} {file : String} {arrivals : List Arrival} {p : Parser}
    (h : ofArrivals limit arrivals file = .ok p) : p.Follows arrivals := by
  cases arrivals with
  | nil =>
    cases h
    exact Or.inr ⟨rfl, rfl⟩
  | cons a ahead =>
    simp only [ofArrivals] at h
    cases ho : a.outcome with
    | error e => simp [ho, Except.map] at h
    | ok t =>
      simp only [ho, Except.map, Except.ok.injEq] at h
      subst h
      exact Or.inl ⟨[], a, rfl, by simp, ho, rfl⟩

section Arrivals

variable {arrivals : List Arrival} {p q : Parser}
  (hlast : ∃ a, arrivals.getLast? = some a ∧ Arrival.Closes a.outcome)

include hlast

theorem Follows.endOfFile (h : p.Follows arrivals) (ha : p.ahead = []) :
    p.peek.kind = .endOfFile := by
  rcases h with ⟨seen, a, hsplit, -, hpeek, -⟩ | ⟨-, hk⟩
  · obtain ⟨b, hb, hcloses⟩ := hlast
    rw [hsplit, ha, List.getLast?_concat] at hb
    cases hb
    rwa [hpeek] at hcloses
  · exact hk

theorem Follows.advance {t : Token} (h : p.Follows arrivals) (ht : Parse.advance p = .ok t q) :
    q.Follows arrivals := by
  unfold Parse.advance at ht
  cases ha : p.ahead with
  | nil =>
    have hk := h.endOfFile hlast ha
    simp only [ha] at ht
    cases ht
    exact Or.inr ⟨rfl, hk⟩
  | cons b ahead =>
    rcases h with ⟨seen, a, hsplit, hseen, hpeek, -⟩ | ⟨hnil, -⟩
    · simp only [ha] at ht
      cases hb : b.outcome with
      | error e => simp [hb] at ht
      | ok u =>
        simp only [hb] at ht
        cases ht
        refine Or.inl ⟨seen ++ [a], b, by simp [hsplit, ha], ?_, hb, rfl⟩
        intro c hc
        rcases List.mem_append.1 hc with hc | hc
        · exact hseen c hc
        · exact ⟨p.peek, by rw [List.mem_singleton.1 hc, hpeek]⟩
    · rw [ha] at hnil
      cases hnil

theorem lasts_follows (hsound : ∀ a ∈ arrivals, a.Sound) : Parse.Lasts (Follows arrivals) where
  note log h := h
  enter h := h
  leave h := h
  advance h ht := h.advance hlast ht
  flaw := by
    intro p q e h he
    unfold Parse.advance at he
    cases ha : p.ahead with
    | nil => simp [ha] at he
    | cons b ahead =>
      have hb : b ∈ arrivals := by
        rcases h with ⟨seen, a, hsplit, -⟩ | ⟨hnil, -⟩
        · simp [hsplit, ha]
        · simp [ha] at hnil
      simp only [ha] at he
      cases ho : b.outcome with
      | ok t => simp [ho] at he
      | error d =>
        simp only [ho] at he
        cases he
        obtain ⟨c, hcause⟩ | hcause := (hsound b hb).error _ ho
        all_goals
          rw [hcause]
          rfl

end Arrivals

/-- The token that a rule finds in view where it wanted another one has just been handed out by the
lexer, and what is left behind it is what the lexer has left. -/
theorem handed_of_unexpected {limit : Nat} {file : String} {feed : Feed} {x : Lexer} {p q : Parser}
    (hx : Lexer.ofFeed file feed = .ok x) (hp : Parser.ofFeed limit file feed = .ok p) (rule : Rule)
    {pos : Position} {wanted : Expected} {found : Found}
    (he : rule.parse p = .error ⟨pos, .grammar (.unexpected wanted found)⟩ q)
    (hk : q.peek.kind ≠ .endOfFile) :
    pos = q.peek.pos ∧ found = q.found ∧
      ∃ l t y, x.Hands l y ∧ y.next.outcome = .ok t ∧ t.visible? = some q.peek ∧
        q.drained = y.next.after.exhausted := by
  obtain ⟨hfresh, -⟩ := Lexer.fresh_of_ofFeed hx
  have hsound : ∀ a ∈ Arrival.ofLexer x, a.Sound := Arrival.sound_group [] fun s hs =>
    Lexer.sound_steps (Lexer.sound_of_ofFeed hx) _ s (Lexer.drainFor_prefix _ s hs)
  obtain ⟨s, hs, hend⟩ := Lexer.drainFor_getLast hfresh.sane hfresh.ended hfresh.potential_le
  have hlast := Arrival.getLast_group [] hs hend
  have hp : Parser.ofLexer limit x = .ok p := by
    simpa only [Parser.ofFeed, hx, bind, Except.bind] using hp
  have hends := (Parse.composed_parse rule).endsIn (lasts_follows hlast hsound)
    (follows_ofArrivals hp)
  rw [he] at hends
  obtain ⟨hq, hpos, hfound⟩ := hends wanted found rfl
  rcases hq with ⟨seen, a, hsplit, hseen, hpeek, hdrained⟩ | ⟨-, hlast⟩
  · obtain ⟨l, t, y, hhands, ht, hv, ha⟩ := Arrival.handed_of_group hsplit hseen hpeek
    exact ⟨hpos, hfound, l, t, y, hhands, ht, hv, hdrained ▸ ha⟩
  · exact absurd hlast hk

end Parser

/-- Errors tell what a semicolon stands for that is not written. If a rule fails with such a
semicolon in view, there is one occasion to it; the error speaks of a new line if it is a line feed or
a comment that holds one, and of the end of the source if it is that end. Only a comment that is the
end of the source as well goes by that end, though it is for the comment that the semicolon is put
in. -/
theorem errors_name_occasions {limit : Nat} {file : String} {feed : Feed} {x : Lexer}
    {p q : Parser} {rule : Rule} {pos : Position} {wanted : Expected} {found : Found}
    (hx : Lexer.ofFeed file feed = .ok x) (hp : Parser.ofFeed limit file feed = .ok p)
    (he : rule.parse p = .error ⟨pos, .grammar (.unexpected wanted found)⟩ q)
    (hk : q.peek.kind = .delimiter .semicolon) (ht : q.peek.text ≠ [';']) :
    ∃ l t y o, x.Hands l y ∧ y.next.outcome = .ok t ∧ t.kind = .delimiter .elidedSemicolon ∧
      q.peek = t.withKind (.delimiter .semicolon) ∧ pos = t.pos ∧
      y.PutIn l o ∧ (∀ o', y.PutIn l o' → o' = o) ∧
      (found.message = "newline" ↔ o = .lineFeed ∨ o = .comment ∧ y.rest ≠ []) ∧
      (found.message = "EOF" ↔ o = .sourceEnd ∨ o = .comment ∧ y.rest = []) := by
  obtain ⟨rfl, rfl, l, t, y, hhands, hnext, hv, hdrained⟩ :=
    Parser.handed_of_unexpected hx hp rule he (by simp [hk])
  obtain ⟨hfresh, hmark, -⟩ := Lexer.fresh_of_ofFeed hx
  have hg := (Lexer.sound_next (hhands.sound (Lexer.sound_of_ofFeed hx))).2.1 t hnext
  obtain ⟨hkind, hpeek⟩ := Token.elided_of_visible hg hv hk ht
  obtain ⟨htrails, i, hi⟩ := hfresh.hands (by rw [Cursor.offset, hmark]; rfl) hhands
  obtain ⟨o, ho, hline⟩ := Lexer.occasion_of_elided htrails hi hnext hkind
  have hfound : q.found =
      if '\n' ∈ t.raw ∨ y.next.after.exhausted = false then .newline else .kind .endOfFile := by
    rw [Parser.found, hk, hdrained]
    dsimp only
    rw [if_neg ht, hpeek]
    rfl
  have hmessage : (q.found.message = "newline" ↔ '\n' ∈ t.raw ∨ y.next.after.exhausted = false) ∧
      (q.found.message = "EOF" ↔ ¬('\n' ∈ t.raw ∨ y.next.after.exhausted = false)) := by
    rw [hfound]
    split
    · rename_i h
      exact ⟨⟨fun _ => h, fun _ => rfl⟩, fun he => absurd he (by decide), fun hn => absurd h hn⟩
    · rename_i h
      exact ⟨⟨fun he => absurd he (by decide), fun hp => absurd hp h⟩, fun _ => h, fun _ => rfl⟩
  refine ⟨l, t, y, o, hhands, hnext, hkind, hpeek, by rw [hpeek]; rfl, ho,
    fun o' ho' => ho'.unique ho, hmessage.1.trans hline, hmessage.2.trans ?_⟩
  rw [hline]
  cases o <;> simp

theorem Parser.error_of_attempt {p : Parser} {rule : Rule} {e : Error}
    (h : (p.attempt [rule]).1 = some e) : rule.parse p = .error e (p.attempt [rule]).2 := by
  simp only [attempt] at h ⊢
  cases hr : rule.parse p with
  | ok t q => simp [hr] at h
  | error d q =>
    simp only [hr, Option.some.injEq] at h
    rw [h]

/-- Behind the name the line ends, and that is what the error speaks of. -/
theorem errors_name_occasions_newline :
    ∃ x p, Lexer.ofFeed "a.go" (.ofText ['(', 'x', '\n']) = .ok x ∧
      Parser.ofFeed 8 "a.go" (.ofText ['(', 'x', '\n']) = .ok p ∧
      ∃ pos q, (Rule.params false).parse p = .error ⟨pos, .grammar (.unexpected .type .newline)⟩ q ∧
        ∃ l t y o, x.Hands l y ∧ y.next.outcome = .ok t ∧
          q.peek = t.withKind (.delimiter .semicolon) ∧ y.PutIn l o ∧
          (o = .lineFeed ∨ o = .comment ∧ y.rest ≠ []) := by
  obtain ⟨x, hx⟩ : ∃ x, Lexer.ofFeed "a.go" (.ofText ['(', 'x', '\n']) = .ok x := ⟨_, rfl⟩
  obtain ⟨p, hp⟩ : ∃ p, Parser.ofFeed 8 "a.go" (.ofText ['(', 'x', '\n']) = .ok p := ⟨_, rfl⟩
  have hrun : (Parser.ofFeed 8 "a.go" (.ofText ['(', 'x', '\n'])).toOption.map
      (fun p => ((p.attempt [.params false]).1, (p.attempt [.params false]).2.peek)) =
        some (some ⟨⟨"a.go", 1, 3⟩, .grammar (.unexpected .type .newline)⟩,
          ⟨⟨"a.go", 1, 3⟩, .delimiter .semicolon, ⟨2, 3⟩, [], ['\n'], none⟩) := by decide +kernel
  simp only [hp, Except.toOption, Option.map_some, Option.some.injEq, Prod.mk.injEq] at hrun
  have he := Parser.error_of_attempt hrun.1
  obtain ⟨l, t, y, o, hhands, hnext, -, hpeek, -, ho, -, hline, -⟩ :=
    errors_name_occasions hx hp he (by rw [hrun.2]) (by rw [hrun.2]; decide)
  exact ⟨x, p, hx, hp, _, _, he, l, t, y, o, hhands, hnext, hpeek, ho, hline.1 rfl⟩

/-- It is not so that errors always speak of a new line where a line feed or a comment that holds one
gives occasion to the semicolon in view. -/
theorem errors_name_occasions_fails :
    ¬∀ (limit : Nat) (file : String) (feed : Feed) (x : Lexer) (p q : Parser) (rule : Rule)
      (pos : Position) (wanted : Expected) (found : Found),
      Lexer.ofFeed file feed = .ok x → Parser.ofFeed limit file feed = .ok p →
      rule.parse p = .error ⟨pos, .grammar (.unexpected wanted found)⟩ q →
      q.peek.kind = .delimiter .semicolon → q.peek.text ≠ [';'] →
      ∀ l t y, x.Hands l y → y.next.outcome = .ok t →
        q.peek = t.withKind (.delimiter .semicolon) →
          (found.message = "newline" ↔ y.PutIn l .lineFeed ∨ y.PutIn l .comment) := by
  intro h
  obtain ⟨x, hx⟩ : ∃ x, Lexer.ofFeed "a.go" (.ofText ['(', 'x', '/', '*', '\n', '*', '/']) = .ok x :=
    ⟨_, rfl⟩
  obtain ⟨p, hp⟩ : ∃ p,
      Parser.ofFeed 8 "a.go" (.ofText ['(', 'x', '/', '*', '\n', '*', '/']) = .ok p := ⟨_, rfl⟩
  obtain ⟨a, b, c, y, hhands, hnext, hc⟩ : ∃ a b c y, x.Hands [a, b, c] y ∧
      y.next.outcome = .ok ⟨⟨"a.go", 2, 3⟩, .delimiter .elidedSemicolon, ⟨7, 7⟩, [], [], none⟩ ∧
        c.BreaksLine := by
    cases hx
    exact ⟨_, _, _, _, .cons rfl (.cons rfl (.cons rfl .nil)), rfl, rfl, by decide⟩
  have hrun : (Parser.ofFeed 8 "a.go" (.ofText ['(', 'x', '/', '*', '\n', '*', '/'])).toOption.map
      (fun p => ((p.attempt [.params false]).1, (p.attempt [.params false]).2.peek)) =
        some (some ⟨⟨"a.go", 2, 3⟩, .grammar (.unexpected .type (.kind .endOfFile))⟩,
          ⟨⟨"a.go", 2, 3⟩, .delimiter .semicolon, ⟨7, 7⟩, [], [], none⟩) := by decide +kernel
  simp only [hp, Except.toOption, Option.map_some, Option.some.injEq, Prod.mk.injEq] at hrun
  have hline := h 8 "a.go" _ x p _ (.params false) _ _ _ hx hp (Parser.error_of_attempt hrun.1)
    (by rw [hrun.2]) (by rw [hrun.2]; decide) _ _ y hhands hnext hrun.2
  have hcomment : y.PutIn [a, b, c] .comment := .comment ⟨c, rfl, hc⟩
  exact absurd (hline.2 (Or.inr hcomment)) (by decide)

end GoSyntax
