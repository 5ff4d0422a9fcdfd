import GoSyntax.Proofs.Utf8
import GoSyntax.Proofs.Lexer.Run
import GoSyntax.Proofs.Lexeme.Locality

/-! Every token that a lexer hands out, also behind errors, has the value that its kind asks for; if it
is written as it is, its text is read as the same token wherever nothing goes on with it. -/
namespace GoSyntax

/-- What a token is, apart from its place. -/
structure Word where
  kind : Kind
  text : Text
  value : Option Value
  deriving DecidableEq, Repr

/-- The text is read as the word wherever nothing goes on with it. -/
structure Word.Stands (w : Word) : Prop where
  ne_nil : w.text ≠ []
  solid : Lexeme.isSolid w.kind = true
  clean : '\x00' ∉ w.text
  read : ∀ elides rest, (∀ c ∈ rest.head?, Lexeme.endsBefore w.kind w.text c = true) →
    Lexeme.read elides (w.text ++ rest) = .done w.text.length (.token w.kind w.value)

/-- The token stands by itself, or is one that has no value and need not be written as it is. -/
def Token.Genuine (t : Token) : Prop :=
  t.value = none ∧ Lexeme.isSolid t.kind = false ∨ Word.Stands ⟨t.kind, t.text, t.value⟩

theorem valueSort?_of_not_solid {kind : Kind} (h : Lexeme.isSolid kind = false) :
    kind.valueSort? = none := by
  cases kind <;> first | rfl | cases h

theorem Token.Genuine.proper {t : Token} (h : t.Genuine) : t.Proper := by
  rcases h with ⟨hv, hk⟩ | h
  · rw [Proper, hv, valueSort?_of_not_solid hk]
    rfl
  · have hs := Lexeme.sound_read false t.text
    have hr := h.read false [] (by simp)
    rw [List.append_nil] at hr
    rw [hr] at hs
    exact hs

theorem stands_dot : Word.Stands ⟨.delimiter .dot, ['.'], none⟩ :=
  ⟨by simp, rfl, by decide, fun _ _ hr =>
    @Lexeme.read_append false _ ['.'] [] _ _ _ (by simp) rfl rfl hr⟩

namespace Cursor

/-- No NUL character is left to read. -/
def Clean (x : Cursor) : Prop := '\x00' ∉ x.ahead ∧ ∀ b ∈ x.breaks, '\x00' ∉ b.run

theorem Clean.skip {x : Cursor} (h : x.Clean) (n : Nat) : (x.skip n).Clean :=
  ⟨fun hm => h.1 (List.mem_of_mem_drop hm), h.2⟩

theorem Clean.take {x : Cursor} (h : x.Clean) (n : Nat) : (x.take n).after.Clean := by
  unfold Cursor.take
  cases hb : x.breaks with
  | nil => exact h.skip n
  | cons b bs =>
    have hall := h.2
    rw [hb] at hall
    dsimp only
    split
    · refine ⟨?_, fun d hd => hall d (List.mem_cons_of_mem _ hd)⟩
      intro hm
      rcases List.mem_append.1 hm with hm | hm
      · exact h.1 (List.mem_of_getLast? (by simpa using hm))
      · exact hall b List.mem_cons_self hm
    · exact h.skip n

theorem split_clean {glyphs : List Utf8.Glyph} (h : ∀ c, .ok c ∈ glyphs → c ≠ '\x00') :
    '\x00' ∉ (Break.split glyphs).1 ∧ ∀ b ∈ (Break.split glyphs).2, '\x00' ∉ b.run := by
  induction glyphs with
  | nil => simp [Break.split]
  | cons g glyphs ih =>
    obtain ⟨h₁, h₂⟩ := ih fun c hc => h c (List.mem_cons_of_mem _ hc)
    cases g with
    | ok c =>
      have hc := h c List.mem_cons_self
      simp only [Break.split, List.mem_cons, not_or]
      exact ⟨⟨Ne.symm hc, h₁⟩, h₂⟩
    | error fault =>
      simp only [Break.split, List.not_mem_nil, not_false_eq_true, List.mem_cons, forall_eq_or_imp,
        true_and]
      exact ⟨h₁, h₂⟩

end Cursor

namespace Lexer

variable {x : Lexer}

/-- What is queued is genuine, and no NUL character is ahead. -/
structure Sound (x : Lexer) : Prop where
  clean : x.cursor.Clean
  queued : ∀ t, x.queued = some t → t.Genuine

theorem clean_lexeme (h : x.cursor.Clean) : '\x00' ∉ x.lexeme := by
  intro hm
  exact (h.skip (blankCount x.cursor)).1 (List.mem_of_mem_take hm)

theorem genuine_lexeme {kind : Kind} {v : Option Value} (hx : x.cursor.Clean)
    (h : x.reading.result = .ok (.token kind v)) (pos : Position) (span : Span) (leading : Text) :
    Token.Genuine ⟨pos, kind, span, leading, x.lexeme, v⟩ := by
  cases hk : Lexeme.isSolid kind with
  | false =>
    have hs := Lexeme.sound_read x.elides x.start.ahead
    rw [Lexeme.Reading.Sound, show (Lexeme.read x.elides x.start.ahead).result = _ from h] at hs
    have hv : v.map Value.sort = kind.valueSort? := hs
    rw [valueSort?_of_not_solid hk, Option.map_eq_none_iff] at hv
    exact Or.inl ⟨hv, hk⟩
  | true =>
    have hne : x.lexeme ≠ [] := by
      intro hnil
      have hsize : x.reading.size = 0 := by rw [← length_lexeme, hnil]; rfl
      by_cases ha : x.start.ahead = []
      · have hend : kind = Lexeme.sourceEnd x.elides := by
          simp only [reading, ha, Lexeme.read, Lexeme.Reading.done, Except.ok.injEq,
            Lexeme.Meaning.token.injEq] at h
          exact h.1.symm
        rw [hend] at hk
        cases hel : x.elides <;> rw [hel] at hk <;> cases hk
      · have := one_le_size ha
        omega
    have hread : Lexeme.read x.elides (x.lexeme ++ x.stop.ahead) =
        .done x.lexeme.length (.token kind v) := by
      rw [lexeme_append, length_lexeme]
      exact Lexeme.eq_done rfl h
    exact Or.inr ⟨hne, hk, clean_lexeme hx, fun _ _ hr => Lexeme.read_append hne hk hread hr⟩

theorem genuine_emptyAt (m : Mark) (elides : Bool) :
    (Token.emptyAt m (Lexeme.lineEnd elides)).Genuine := by
  refine Or.inl ⟨rfl, ?_⟩
  cases elides <;> rfl

theorem sound_next (h : Sound x) :
    Sound x.next.after ∧ (∀ t, x.next.outcome = .ok t → t.Genuine) ∧
      ∀ e, x.next.outcome = .error e → e.cause.IsLexical := by
  have hm := next_move x
  generalize x.next = s at hm ⊢
  cases hm with
  | queued hq =>
    refine ⟨⟨h.clean, by simp⟩, ?_, by simp⟩
    rintro _ ⟨⟩
    exact h.queued _ hq
  | blankFault _ hf =>
    refine ⟨⟨h.clean.take _, h.queued⟩, by simp [interrupt], ?_⟩
    rintro _ ⟨⟩
    exact Cause.isLexical_lexical _
  | lexemeFault _ hf =>
    refine ⟨⟨(h.clean.skip _).take _, h.queued⟩, by simp [interrupt], ?_⟩
    rintro _ ⟨⟩
    exact Cause.isLexical_lexical _
  | flaw _ _ hr =>
    refine ⟨⟨(h.clean.skip _).skip _, h.queued⟩, by simp, ?_⟩
    rintro _ ⟨⟩
    have hs := Lexeme.sound_read x.elides x.start.ahead
    rw [Lexeme.Reading.Sound, show (Lexeme.read x.elides x.start.ahead).result = _ from hr] at hs
    exact hs
  | @lexeme meaning _ _ hr =>
    have hclean : x.stop.Clean := (h.clean.skip _).skip _
    cases meaning with
    | token kind v =>
      refine ⟨⟨hclean, ?_⟩, ?_, by simp [produce]⟩
      · intro t ht
        simp only [produce, emit_queued, queuedBehind] at ht
        split at ht
        · cases ht
          exact genuine_emptyAt _ _
        · cases ht
      · rintro _ ⟨⟩
        exact genuine_lexeme h.clean hr _ _ _
    | twoDots =>
      have hdots := lexeme_of_twoDots hr
      refine ⟨⟨hclean, ?_⟩, ?_, by simp [produce]⟩
      · rintro _ ⟨⟩
        rw [Token.Genuine, hdots]
        exact Or.inr stands_dot
      · rintro _ ⟨⟩
        rw [Token.Genuine, hdots]
        exact Or.inr stands_dot

theorem sound_of_ofFeed {file : String} {feed : Feed} (h : ofFeed file feed = .ok x) : Sound x := by
  obtain ⟨hfresh, -, hsplit⟩ := fresh_of_ofFeed h
  refine ⟨?_, by simp [hfresh.queued]⟩
  have hclean := @Cursor.split_clean (Utf8.decode feed.octets) fun c => Utf8.decode_ne_nul
  rw [← hsplit] at hclean
  exact hclean

/-- All steps of a lexer, whatever came before them, give genuine tokens or flaws of the source. -/
theorem sound_steps (h : Sound x) (n : Nat) : ∀ s ∈ x.steps n,
    (∀ t, s.outcome = .ok t → t.Genuine) ∧ ∀ e, s.outcome = .error e → e.cause.IsLexical := by
  induction n generalizing x with
  | zero => simp [steps]
  | succ n ih =>
    obtain ⟨hnext, hout⟩ := sound_next h
    intro s hs
    rcases List.mem_cons.1 hs with rfl | hs
    · exact hout
    · split at hs
      · cases hs
      · exact ih hnext s hs

theorem drainFor_prefix (n : Nat) : ∀ s ∈ x.drainFor n, s ∈ x.steps n := by
  induction n generalizing x with
  | zero => simp [drainFor]
  | succ n ih =>
    intro s hs
    simp only [drainFor] at hs
    cases hstop : x.next.isEnd || x.next.isCrash with
    | true =>
      rw [hstop, if_pos rfl, List.mem_singleton] at hs
      exact hs ▸ List.mem_cons_self
    | false =>
      rw [hstop, if_neg (by decide)] at hs
      rcases List.mem_cons.1 hs with rfl | hs
      · exact List.mem_cons_self
      · refine List.mem_cons_of_mem _ ?_
        rw [(Bool.or_eq_false_iff.1 hstop).2, if_neg (by decide)]
        exact ih s hs

/-- A drain ends with the end of the source, or with a crash. -/
theorem drainFor_getLast (hs : Sane x) (he : x.ended = false) {n : Nat} (hn : x.potential ≤ n) :
    ∃ s, (x.drainFor n).getLast? = some s ∧ (s.isEnd || s.isCrash) = true := by
  induction n generalizing x with
  | zero =>
    have := potential_pos he
    omega
  | succ n ih =>
    cases hstop : x.next.isEnd || x.next.isCrash with
    | true => exact ⟨x.next, by simp [drainFor, hstop], hstop⟩
    | false =>
      have hlt := potential_next hs he
      have hne : x.next.after.ended = false := by
        rw [ended_next, he, (Bool.or_eq_false_iff.1 hstop).1]
        rfl
      obtain ⟨s, hlast, hs'⟩ := ih (sane_next hs) hne (by omega)
      exact ⟨s, by simp [drainFor, hstop, List.getLast?_cons, hlast], hs'⟩

end Lexer
end GoSyntax
