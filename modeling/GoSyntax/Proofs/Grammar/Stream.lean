import GoSyntax.Grammar.Parser
import GoSyntax.Proofs.Lexer.Words

/-! What arrives at a parser: tokens that stand by themselves, semicolons, flaws of the source, and
the end of the source behind all of them. -/
namespace GoSyntax

/-- The token stands by itself, or is a semicolon or the end of the source. -/
def Token.Lawful (t : Token) : Prop :=
  t.value = none ∧ (t.kind = .endOfFile ∨ t.kind = .delimiter .semicolon) ∨
    Word.Stands ⟨t.kind, t.text, t.value⟩

namespace Token

variable {t v : Token}

theorem Lawful.proper (h : t.Lawful) : t.Proper := by
  rcases h with ⟨hv, hk | hk⟩ | h
  · rw [Proper, hv, hk]
    rfl
  · rw [Proper, hv, hk]
    rfl
  · exact Genuine.proper (Or.inr h)

theorem Lawful.stands (h : t.Lawful) (h₁ : t.kind ≠ .endOfFile)
    (h₂ : t.kind ≠ .delimiter .semicolon) : Word.Stands ⟨t.kind, t.text, t.value⟩ := by
  rcases h with ⟨-, hk | hk⟩ | h
  · exact absurd hk h₁
  · exact absurd hk h₂
  · exact h

theorem lawful_of_visible (h : t.Genuine) (hv : t.visible? = some v) : v.Lawful := by
  rcases h with ⟨hval, hk⟩ | hs
  · refine Or.inl ?_
    unfold visible? at hv
    split at hv
    · cases hv
    · cases hv
    · cases hv
      exact ⟨hval, Or.inr rfl⟩
    · rename_i h₁ h₂ h₃
      cases hv
      refine ⟨hval, Or.inl ?_⟩
      cases hkind : t.kind with
      | endOfFile => rfl
      | comment f => exact absurd hkind (h₁ f)
      | delimiter d =>
        cases d with
        | endOfLine => exact absurd hkind h₂
        | elidedSemicolon => exact absurd hkind h₃
        | _ => rw [hkind] at hk; cases hk
      | _ => rw [hkind] at hk; cases hk
  · have hsolid := hs.solid
    unfold visible? at hv
    split at hv
    · cases hv
    · cases hv
    · rename_i hk
      simp only [hk] at hsolid
      cases hsolid
    · cases hv
      exact Or.inr hs

theorem visible?_endOfFile (h : t.kind = .endOfFile) : t.visible? = some t := by
  simp [visible?, h]

end Token

namespace Arrival

/-- The arrival is a lawful token or a flaw of the source. -/
structure Sound (a : Arrival) : Prop where
  ok : ∀ t, a.outcome = .ok t → t.Lawful
  error : ∀ e, a.outcome = .error e → e.cause.IsLexical

theorem sound_group {steps : List Step} (passed : List Token)
    (h : ∀ s ∈ steps, (∀ t, s.outcome = .ok t → t.Genuine) ∧
      ∀ e, s.outcome = .error e → e.cause.IsLexical) :
    ∀ a ∈ group passed steps, a.Sound := by
  induction steps generalizing passed with
  | nil => simp [group]
  | cons s steps ih =>
    have hs := h s List.mem_cons_self
    have hrest := fun passed => ih passed fun u hu => h u (List.mem_cons_of_mem _ hu)
    obtain ⟨outcome, after⟩ := s
    cases outcome with
    | error e =>
      intro a ha
      rcases List.mem_cons.1 ha with rfl | ha
      · exact ⟨by simp, hs.2⟩
      · exact hrest _ a ha
    | ok t =>
      intro a ha
      cases hv : t.visible? with
      | none =>
        simp only [group, hv] at ha
        exact hrest _ a ha
      | some v =>
        simp only [group, hv] at ha
        rcases List.mem_cons.1 ha with rfl | ha
        · refine ⟨?_, by simp⟩
          rintro _ ⟨⟩
          exact Token.lawful_of_visible (hs.1 t rfl) hv
        · exact hrest _ a ha

/-- Nothing comes behind this: it is the end of the source, or a crash. -/
def Closes : Except Error Token → Prop
  | .ok t => t.kind = .endOfFile
  | .error e => e.isCrash = true

/-- The end of the source or a crash arrives last if it is handed out last. -/
theorem getLast_group {steps : List Step} {s : Step} (passed : List Token)
    (h : steps.getLast? = some s) (hs : (s.isEnd || s.isCrash) = true) :
    ∃ a, (group passed steps).getLast? = some a ∧ Closes a.outcome := by
  induction steps generalizing passed with
  | nil => cases h
  | cons u steps ih =>
    obtain ⟨outcome, after⟩ := u
    cases steps with
    | nil =>
      obtain rfl : _ = s := Option.some.inj h
      cases outcome with
      | error e =>
        have he : e.isCrash = true := by simpa [Step.isEnd, Step.isCrash] using hs
        exact ⟨⟨passed.reverse, .error e, after.exhausted⟩, rfl, he⟩
      | ok t =>
        have hk : t.kind = .endOfFile := by simpa [Step.isEnd, Step.isCrash] using hs
        refine ⟨⟨(t :: passed).reverse, .ok t, after.exhausted⟩, ?_, hk⟩
        simp [group, Token.visible?_endOfFile hk]
    | cons w steps =>
      rw [List.getLast?_cons_cons] at h
      have hrest := fun passed => ih passed h
      cases outcome with
      | error e =>
        obtain ⟨a, ha, hcloses⟩ := hrest []
        exact ⟨a, by simp only [group, List.getLast?_cons, ha, Option.getD_some], hcloses⟩
      | ok t =>
        cases hv : t.visible? with
        | none =>
          obtain ⟨a, ha, hcloses⟩ := hrest (t :: passed)
          exact ⟨a, by simp only [group, hv, ha], hcloses⟩
        | some v =>
          obtain ⟨a, ha, hcloses⟩ := hrest []
          exact ⟨a, by simp only [group, hv, List.getLast?_cons, ha, Option.getD_some], hcloses⟩

end Arrival

namespace Parser

/-- What has arrived and is not taken yet. -/
def stream (p : Parser) : List (Except Error Token) := .ok p.peek :: p.ahead.map Arrival.outcome

/-- What comes last: the last arrival, or the token in view if nothing is ahead. -/
def final (p : Parser) : Except Error Token :=
  (p.ahead.getLast?.map Arrival.outcome).getD (.ok p.peek)

/-- The state of a parser that reads a source, whatever it has done so far. -/
structure Good (p : Parser) : Prop where
  peek : p.peek.Lawful
  ahead : ∀ a ∈ p.ahead, a.Sound
  final : Arrival.Closes p.final

variable {p : Parser}

theorem Good.endOfFile (h : p.Good) (ha : p.ahead = []) : p.peek.kind = .endOfFile := by
  have hfinal := h.final
  simp only [Parser.final, ha, List.getLast?_nil, Option.map_none, Option.getD_none] at hfinal
  exact hfinal

/-- A stream that has the end of the source or a crash last makes a good parser. -/
theorem good_of_ofArrivals {limit : Nat} {file : String} {arrivals : List Arrival}
    (hs : ∀ a ∈ arrivals, a.Sound)
    (hl : ∃ a, arrivals.getLast? = some a ∧ Arrival.Closes a.outcome)
    (h : ofArrivals limit arrivals file = .ok p) : p.Good ∧ p.depth = 0 ∧ p.limit = limit := by
  obtain ⟨last, hlast, hcloses⟩ := hl
  cases arrivals with
  | nil => cases hlast
  | cons a ahead =>
    simp only [ofArrivals] at h
    cases ha : a.outcome with
    | error e => simp [ha, Except.map] at h
    | ok u =>
      simp only [ha, Except.map, Except.ok.injEq] at h
      subst h
      refine ⟨⟨(hs a List.mem_cons_self).ok u ha, fun b hb => hs b (List.mem_cons_of_mem _ hb),
        ?_⟩, rfl, rfl⟩
      rw [List.getLast?_cons] at hlast
      cases hrest : ahead.getLast? with
      | none =>
        simp only [hrest, Option.getD_none, Option.some.injEq] at hlast
        simpa [Parser.final, hrest, ← ha, hlast] using hcloses
      | some b =>
        simp only [hrest, Option.getD_some, Option.some.injEq] at hlast
        simpa [Parser.final, hrest, hlast] using hcloses

theorem good_of_ofFeed {limit : Nat} {file : String} {feed : Feed}
    (h : ofFeed limit file feed = .ok p) : p.Good ∧ p.depth = 0 ∧ p.limit = limit := by
  unfold ofFeed at h
  cases hx : Lexer.ofFeed file feed with
  | error e => simp [hx, bind, Except.bind] at h
  | ok x =>
    simp only [hx, bind, Except.bind, ofLexer] at h
    obtain ⟨hfresh, -⟩ := Lexer.fresh_of_ofFeed hx
    obtain ⟨s, hs, hend⟩ := Lexer.drainFor_getLast hfresh.sane hfresh.ended hfresh.potential_le
    refine good_of_ofArrivals ?_ (Arrival.getLast_group [] hs hend) h
    refine Arrival.sound_group [] fun u hu => ?_
    exact Lexer.sound_steps (Lexer.sound_of_ofFeed hx) _ u (Lexer.drainFor_prefix _ u hu)

end Parser
end GoSyntax
