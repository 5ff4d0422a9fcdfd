import GoSyntax.Proofs.Grammar.Stream

/-! What a grammar rule is sure of: on every good state it keeps the state good and the depth as it
was, gives only back what is asked of it, and never fails by a defect. Behind a crash there is no
state to speak of. -/
namespace GoSyntax

/-- No source leads to this error: an internal one, or a place out of range. -/
def Error.isStray (e : Error) : Bool := e.isInternal || e.cause == .crash .outOfRange

namespace Error

variable {e : Error}

theorem isStray_of_lexical (h : e.cause.IsLexical) : e.isStray = false := by
  obtain ⟨pos, cause⟩ := e
  rcases h with ⟨c, rfl⟩ | rfl <;> rfl

theorem isStray_iff :
    e.isStray = false ↔ e.isInternal = false ∧ e.cause ≠ .crash .outOfRange := by
  simp [isStray]

end Error

namespace Parser

/-- What every rule keeps. If it took no token, the kind of the token in view is the same. -/
structure Kept (p q : Parser) : Prop where
  good : q.Good
  depth : q.depth = p.depth
  limit : q.limit = p.limit
  ahead : q.ahead.length ≤ p.ahead.length
  idle : q.ahead.length = p.ahead.length → q.peek.kind = p.peek.kind

variable {p q r : Parser}

theorem Kept.refl (h : p.Good) : Kept p p := ⟨h, rfl, rfl, Nat.le_refl _, fun _ => rfl⟩

theorem Kept.trans (h₁ : Kept p q) (h₂ : Kept q r) : Kept p r where
  good := h₂.good
  depth := h₂.depth.trans h₁.depth
  limit := h₂.limit.trans h₁.limit
  ahead := Nat.le_trans h₂.ahead h₁.ahead
  idle h := by
    have h₁' := h₁.ahead
    have h₂' := h₂.ahead
    exact (h₂.idle (by omega)).trans (h₁.idle (by omega))

theorem Kept.room (h : Kept p q) : q.room = p.room := by
  rw [Parser.room, Parser.room, h.depth, h.limit]

/-- A token was taken, unless the end of the source was in view. -/
def Took (p q : Parser) : Prop := p.peek.kind ≠ .endOfFile → q.ahead.length < p.ahead.length

theorem Good.enter (h : p.Good) : p.enter.Good := ⟨h.peek, h.ahead, h.final⟩

theorem Good.leave (h : p.Good) : p.leave.Good := ⟨h.peek, h.ahead, h.final⟩

/-- A level that is opened and closed again leaves its mark on the peak only. -/
theorem Kept.reopened (h : Kept p q) : Kept p q.enter.leave :=
  ⟨h.good.enter.leave, h.depth, h.limit, h.ahead, h.idle⟩

theorem Kept.leave (h : Kept p.enter q) : Kept p q.leave where
  good := h.good.leave
  depth := by
    rw [leave_depth, h.depth]
    exact Nat.add_sub_cancel p.depth 1
  limit := h.limit
  ahead := h.ahead
  idle := h.idle

theorem good_setLog (h : p.Good) (log : List Event) : { p with log }.Good :=
  ⟨h.peek, h.ahead, h.final⟩

end Parser

namespace Parse

open GoSyntax.Parser

variable {α β σ : Type} {m : Parse α} {f : α → Parse β} {p q : Parser}
  {Q Q' : α → Parser → Prop} {R : β → Parser → Prop}

/-- From `p` the rule keeps what every rule keeps, gives what `Q` holds of, and meets no defect. -/
def Sure (m : Parse α) (p : Parser) (Q : α → Parser → Prop) : Prop :=
  match m p with
  | .ok a q => Kept p q ∧ Q a q
  | .error e q => (e.isCrash = false → Kept p q) ∧ e.isStray = false

theorem Sure.of_ok {a : α} (h : Sure m p Q) (hm : m p = .ok a q) : Kept p q ∧ Q a q := by
  unfold Sure at h
  rwa [hm] at h

theorem Sure.of_error {e : Error} (h : Sure m p Q) (hm : m p = .error e q) :
    (e.isCrash = false → Kept p q) ∧ e.isStray = false := by
  unfold Sure at h
  rwa [hm] at h

theorem Sure.mono (h : Sure m p Q) (hQ : ∀ a q, Kept p q → Q a q → Q' a q) : Sure m p Q' := by
  unfold Sure at h ⊢
  split at h
  · exact ⟨h.1, hQ _ _ h.1 h.2⟩
  · exact h

theorem Sure.congr {m' : Parse α} (h : m p = m' p) (hm : Sure m' p Q) : Sure m p Q := by
  unfold Sure at hm ⊢
  rwa [h]

theorem Sure.pure {a : α} (hp : p.Good) (h : Q a p) : Sure (pure a) p Q := ⟨.refl hp, h⟩

theorem Sure.fail {e : Error} (hp : p.Good) (h : e.isStray = false) (hm : m p = .error e p) :
    Sure m p Q := by
  unfold Sure
  rw [hm]
  exact ⟨fun _ => .refl hp, h⟩

theorem bind_ok {a : α} (h : m p = .ok a q) (f : α → Parse β) : (m >>= f) p = f a q := by
  simp only [Bind.bind, EStateM.bind, h]

theorem bind_error {e : Error} (h : m p = .error e q) (f : α → Parse β) :
    (m >>= f) p = .error e q := by
  simp only [Bind.bind, EStateM.bind, h]

theorem Sure.bind (hm : Sure m p Q) (hf : ∀ a q, Kept p q → Q a q → Sure (f a) q R) :
    Sure (m >>= f) p R := by
  unfold Sure at hm
  split at hm
  · rename_i a q heq
    have hfa := hf a q hm.1 hm.2
    unfold Sure at hfa ⊢
    rw [bind_ok heq]
    split at hfa
    · exact ⟨hm.1.trans hfa.1, hfa.2⟩
    · exact ⟨fun hcrash => hm.1.trans (hfa.1 hcrash), hfa.2⟩
  · rename_i e q heq
    unfold Sure
    rw [bind_error heq]
    exact hm

theorem Sure.map {g : α → β} (hm : Sure m p Q) (hg : ∀ a q, Kept p q → Q a q → R (g a) q) :
    Sure (g <$> m) p R := by
  rw [map_eq_pure_bind]
  exact hm.bind fun a q hk ha => .pure hk.good (hg a q hk ha)

theorem sure_failAt (hp : p.Good) {pos : Position} {cause : Cause}
    (h : (Error.mk pos cause).isStray = false) : Sure (failAt pos cause : Parse α) p Q :=
  .fail hp h rfl

theorem sure_problemAt (hp : p.Good) (pos : Position) (problem : Problem) :
    Sure (problemAt pos problem : Parse α) p Q := sure_failAt hp rfl

theorem sure_unexpected (hp : p.Good) (wanted : Expected) :
    Sure (unexpected wanted : Parse α) p Q := .fail hp rfl rfl

theorem sure_tooDeep (hp : p.Good) : Sure (tooDeep : Parse α) p Q := .fail hp rfl rfl

theorem sure_peek (hp : p.Good) : Sure peek p fun t q => t = p.peek ∧ p = q :=
  ⟨.refl hp, rfl, rfl⟩

theorem sure_peekIs (hp : p.Good) (kind : Kind) :
    Sure (peekIs kind) p fun b q => (b = true ↔ p.peek.kind = kind) ∧ p = q :=
  ⟨.refl hp, by simp, rfl⟩

theorem sure_note (hp : p.Good) (e : Event) :
    Sure (note e) p fun _ q => q.peek = p.peek ∧ q.ahead = p.ahead :=
  ⟨⟨good_setLog hp _, rfl, rfl, Nat.le_refl _, fun _ => rfl⟩, rfl, rfl⟩

theorem sure_advance (hp : p.Good) : Sure advance p fun t q => t = p.peek ∧ Took p q := by
  unfold Sure advance
  cases ha : p.ahead with
  | nil =>
    have hend := hp.endOfFile ha
    refine ⟨⟨⟨hp.peek, by simp, hend⟩, rfl, rfl, by simp, fun _ => rfl⟩, rfl, fun h => absurd hend h⟩
  | cons a ahead =>
    have hgood : ∀ b ∈ ahead, b.Sound := fun b hb => hp.ahead b (by simp [ha, hb])
    have hsound := hp.ahead a (by simp [ha])
    have hfinal := hp.final
    simp only [final, ha, List.getLast?_cons, Option.map_some, Option.getD_some] at hfinal
    dsimp only
    cases ho : a.outcome with
    | ok u =>
      refine ⟨⟨⟨hsound.ok u ho, hgood, ?_⟩, rfl, rfl, ?_, ?_⟩, rfl, fun _ => ?_⟩
      · cases hl : ahead.getLast? with
        | none => simpa [final, hl, ho] using hfinal
        | some b => simpa [final, hl] using hfinal
      · simp [ha]
      · simp [ha]
      · simp [ha]
    | error e =>
      refine ⟨fun hcrash => ⟨⟨hp.peek, hgood, ?_⟩, rfl, rfl, ?_, ?_⟩, ?_⟩
      · cases hl : ahead.getLast? with
        | none =>
          -- nothing comes behind the error, so it is a crash
          rw [hl, Option.getD_none, ho] at hfinal
          exact absurd hfinal (by simp [Arrival.Closes, hcrash])
        | some b => simpa [final, hl] using hfinal
      · simp [ha]
      · simp [ha]
      · exact Error.isStray_of_lexical (hsound.error e ho)

theorem sure_consumeIf (hp : p.Good) {kind : Kind} (hk : kind ≠ .endOfFile) :
    Sure (consumeIf kind) p fun b q =>
      b = true ∧ p.peek.kind = kind ∧ q.ahead.length < p.ahead.length ∨
        b = false ∧ p.peek.kind ≠ kind ∧ p = q := by
  refine (sure_peekIs hp kind).bind ?_
  rintro b _ - ⟨hb, rfl⟩
  cases b with
  | true =>
    have hkind := hb.1 rfl
    refine (sure_advance hp).bind fun t q hq ht => .pure hq.good (Or.inl ⟨rfl, hkind, ?_⟩)
    exact ht.2 (by rw [hkind]; exact hk)
  | false => exact .pure hp (Or.inr ⟨rfl, fun h => Bool.false_ne_true (hb.2 h), rfl⟩)

theorem sure_require (hp : p.Good) (wanted : Expected) (kinds : List Kind) :
    Sure (require wanted kinds) p fun t q => t = p.peek ∧ t.kind ∈ kinds ∧ Took p q := by
  refine (sure_peek hp).bind ?_
  rintro _ _ - ⟨rfl, rfl⟩
  split
  · rename_i h
    refine (sure_advance hp).mono fun t q _ ht => ⟨ht.1, ?_, ht.2⟩
    rw [ht.1]
    simpa using h
  · exact sure_unexpected hp wanted

theorem sure_identifier (hp : p.Good) (wanted : Expected) :
    Sure (identifier wanted) p fun i q =>
      i = Ident.ofToken p.peek ∧ p.peek.kind = .identifier ∧
        q.ahead.length < p.ahead.length := by
  refine (sure_require hp wanted [.identifier]).map ?_
  rintro t q - ⟨rfl, hk, ht⟩
  have hkind : p.peek.kind = .identifier := List.mem_singleton.1 hk
  exact ⟨rfl, hkind, ht (by simp [hkind])⟩

theorem sure_terminator (hp : p.Good) (wanted : Expected) :
    Sure (terminator wanted) p fun _ _ => True := by
  refine (sure_peek hp).bind ?_
  rintro _ _ - ⟨rfl, rfl⟩
  split
  · exact .pure hp trivial
  · exact (sure_require hp _ _).bind fun _ q hq _ => .pure hq.good trivial

theorem room_enter {p : Parser} (h : p.depth < p.limit) : p.enter.room + 1 = p.room := by
  simp only [Parser.room, enter_limit, enter_depth]
  omega

theorem Sure.nested (hp : p.Good)
    (hm : p.depth < p.limit → Sure m p.enter fun a q => Q a q.leave) : Sure (nested m) p Q := by
  unfold Sure Parse.nested
  by_cases hd : p.limit ≤ p.depth
  · rw [if_pos hd]
    exact ⟨fun _ => .refl hp, rfl⟩
  · rw [if_neg hd]
    have h := hm (by omega)
    cases hr : m p.enter with
    | ok a q =>
      obtain ⟨hkept, hq⟩ := h.of_ok hr
      exact ⟨hkept.leave, hq⟩
    | error e q =>
      obtain ⟨hkept, he⟩ := h.of_error hr
      exact ⟨fun hcrash => (hkept hcrash).leave, he⟩

/-- What a round of a loop that starts at `q` gives: the loop is done, or a token was taken and it
goes on. -/
def Round (I D : σ → Parser → Prop) (q : Parser) : ForInStep σ → Parser → Prop
  | .done s, q' => D s q'
  | .yield s, q' => I s q' ∧ q'.ahead.length < q.ahead.length

/-- A loop whose rounds each take a token ends because its body is done. -/
theorem Sure.loopFor {body : σ → Parse (ForInStep σ)} {I D : σ → Parser → Prop}
    (hbody : ∀ s q, Kept p q → I s q → Sure (body s) q (Round I D q))
    {n : Nat} {s : σ} (hq : Kept p q) (hn : q.ahead.length < n) (hs : I s q) :
    Sure (loopFor body n s) q D := by
  induction n generalizing s q with
  | zero => omega
  | succ n ih =>
    refine (hbody s q hq hs).bind ?_
    intro r q' hq' hr
    cases r with
    | done s' => exact .pure hq'.good hr
    | yield s' => exact ih (hq.trans hq') (by have := hr.2; omega) hr.1

theorem Sure.loop {body : σ → Parse (ForInStep σ)} {I D : σ → Parser → Prop}
    (hbody : ∀ s q, Kept p q → I s q → Sure (body s) q (Round I D q))
    {s : σ} (hp : p.Good) (hs : I s p) : Sure (loop body s) p D :=
  Sure.loopFor hbody (.refl hp) (Nat.lt_succ_self _) hs

section Lists

variable {item : Parse α} {P : α → Prop}

theorem Sure.commaListFor {stop : Kind} (hitem : ∀ q, Kept p q → Sure item q fun a _ => P a)
    (n : Nat) (hq : Kept p q) : Sure (commaListFor stop item n) q fun l _ => ∀ a ∈ l, P a := by
  induction n generalizing q with
  | zero => exact .pure hq.good (by simp)
  | succ n ih =>
    refine (sure_peekIs hq.good stop).bind ?_
    rintro b _ - ⟨-, rfl⟩
    cases b with
    | true => exact .pure hq.good (by simp)
    | false =>
      refine (hitem q hq).bind fun a q₁ h₁ ha => ?_
      refine (sure_consumeIf h₁.good (by simp)).bind fun b q₂ h₂ _ => ?_
      cases b with
      | true =>
        refine (ih ((hq.trans h₁).trans h₂)).bind fun l q₃ h₃ hl => .pure h₃.good ?_
        simpa using ⟨ha, hl⟩
      | false => exact .pure h₂.good (by simpa using ha)

theorem Sure.termListFor {stop : Kind} {wanted : Expected}
    (hitem : ∀ q, Kept p q → Sure item q fun a _ => P a) (n : Nat) (hq : Kept p q) :
    Sure (termListFor stop wanted item n) q fun l _ => ∀ a ∈ l, P a := by
  induction n generalizing q with
  | zero => exact .pure hq.good (by simp)
  | succ n ih =>
    refine (sure_peekIs hq.good stop).bind ?_
    rintro b _ - ⟨-, rfl⟩
    cases b with
    | true => exact .pure hq.good (by simp)
    | false =>
      refine (hitem q hq).bind fun a q₁ h₁ ha => ?_
      refine (sure_terminator h₁.good wanted).bind fun _ q₂ h₂ _ => ?_
      refine (ih ((hq.trans h₁).trans h₂)).bind fun l q₃ h₃ hl => .pure h₃.good ?_
      simpa using ⟨ha, hl⟩

theorem Sure.openedListFor {opener : Kind} (hk : opener ≠ .endOfFile)
    (hitem : ∀ q, Kept p q → Sure item q fun a _ => P a) (n : Nat) (hq : Kept p q) :
    Sure (openedListFor opener item n) q fun l _ => ∀ a ∈ l, P a := by
  induction n generalizing q with
  | zero => exact .pure hq.good (by simp)
  | succ n ih =>
    refine (sure_consumeIf hq.good hk).bind fun b q₁ h₁ _ => ?_
    cases b with
    | true =>
      refine (hitem q₁ (hq.trans h₁)).bind fun a q₂ h₂ ha => ?_
      refine (ih ((hq.trans h₁).trans h₂)).bind fun l q₃ h₃ hl => .pure h₃.good ?_
      simpa using ⟨ha, hl⟩
    | false => exact .pure h₁.good (by simp)

variable (hp : p.Good)

include hp

theorem Sure.commaList {stop : Kind} (hitem : ∀ q, Kept p q → Sure item q fun a _ => P a) :
    Sure (commaList stop item) p fun l _ => ∀ a ∈ l, P a :=
  Sure.commaListFor hitem _ (.refl hp)

theorem Sure.termList {stop : Kind} {wanted : Expected}
    (hitem : ∀ q, Kept p q → Sure item q fun a _ => P a) :
    Sure (termList stop wanted item) p fun l _ => ∀ a ∈ l, P a :=
  Sure.termListFor hitem _ (.refl hp)

theorem Sure.openedList {opener : Kind} (hk : opener ≠ .endOfFile)
    (hitem : ∀ q, Kept p q → Sure item q fun a _ => P a) :
    Sure (openedList opener item) p fun l _ => ∀ a ∈ l, P a :=
  Sure.openedListFor hk hitem _ (.refl hp)

end Lists

end Parse
end GoSyntax
