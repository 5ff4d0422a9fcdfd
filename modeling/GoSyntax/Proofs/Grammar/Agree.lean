import Mathlib.Data.List.Forall2
import GoSyntax.Proofs.Grammar.Runs
import GoSyntax.Proofs.Tree.Shape

/-! Two parsers side by side. Where tokens of the same shapes come, rules go the same way: no rule
looks at places, at blanks or at how a semicolon came about. -/
namespace GoSyntax

/-- The parsers are at the same depth, and tokens of the same shapes come at both. -/
structure Parser.Alike (p q : Parser) : Prop where
  depth : p.depth = q.depth
  limit : p.limit = q.limit
  peek : p.peek.shape = q.peek.shape
  ahead : List.Forall₂ (fun a b => SameOutcome Token.shape a.outcome b.outcome) p.ahead q.ahead

namespace Parse

/-- Both rules succeed with what `f` takes for the same and parsers that are alike, or both fail with
errors of one variant. -/
inductive SameEnd {α γ : Type} (f : α → γ) :
    EStateM.Result Error Parser α → EStateM.Result Error Parser α → Prop
  | ok {a b : α} {p q : Parser} (h : f a = f b) (hp : p.Alike q) : SameEnd f (.ok a p) (.ok b q)
  | error {d e : Error} {p q : Parser} (h : d.cause.variant = e.cause.variant) :
    SameEnd f (.error d p) (.error e q)

/-- From parsers that are alike the rules come to the same end. -/
def Agree {α γ : Type} (f : α → γ) (m n : Parse α) : Prop :=
  ∀ p q, p.Alike q → SameEnd f (m p) (n q)

variable {α β γ δ σ : Type} {f : α → γ} {g : β → δ} {m n : Parse α} {p q : Parser}

theorem Agree.pure {a b : α} (h : f a = f b) : Agree f (pure a) (pure b) :=
  fun _ _ hp => .ok h hp

theorem Agree.cases (h : Agree f m n) (hp : p.Alike q) :
    (∃ a b p' q', m p = .ok a p' ∧ n q = .ok b q' ∧ f a = f b ∧ p'.Alike q') ∨
      ∃ d e p' q', m p = .error d p' ∧ n q = .error e q' ∧ d.cause.variant = e.cause.variant := by
  have hend := h p q hp
  generalize m p = r at hend
  generalize n q = s at hend
  cases hend with
  | ok h hp' => exact Or.inl ⟨_, _, _, _, rfl, rfl, h, hp'⟩
  | error h => exact Or.inr ⟨_, _, _, _, rfl, rfl, h⟩

theorem Agree.bind {k l : α → Parse β} (hm : Agree f m n)
    (hk : ∀ a b, f a = f b → Agree g (k a) (l b)) : Agree g (m >>= k) (n >>= l) := by
  intro p q hp
  obtain ⟨a, b, p', q', hmp, hnq, h, hp'⟩ | ⟨d, e, p', q', hmp, hnq, h⟩ := hm.cases hp
  · rw [bind_ok hmp, bind_ok hnq]
    exact hk a b h p' q' hp'
  · rw [bind_error hmp, bind_error hnq]
    exact .error h

theorem Agree.map {F G : α → β} (hm : Agree f m n) (hF : ∀ a b, f a = f b → g (F a) = g (G b)) :
    Agree g (F <$> m) (G <$> n) := by
  rw [map_eq_pure_bind, map_eq_pure_bind]
  exact hm.bind fun a b h => .pure (hF a b h)

/-- A rule that both find something with, or neither. -/
theorem Agree.option {m n : Parse (Option α)} {k l : Option α → Parse β}
    (hm : Agree (Option.map f) m n) (hsome : ∀ a b, f a = f b → Agree g (k (some a)) (l (some b)))
    (hnone : Agree g (k none) (l none)) : Agree g (m >>= k) (n >>= l) := by
  refine hm.bind fun a b h => ?_
  cases a with
  | some a =>
    cases b with
    | some b => exact hsome a b (Option.some.inj h)
    | none => cases h
  | none =>
    cases b with
    | some b => cases h
    | none => exact hnone

/-- A question that both answer alike. -/
theorem Agree.ite {c d : Parse Bool} {k k' l l' : Parse α} (hc : Agree id c d) (hk : Agree f k l)
    (hk' : Agree f k' l') :
    Agree f (do if ← c then k else k') (do if ← d then l else l') := by
  refine hc.bind fun a b h => ?_
  obtain rfl : a = b := h
  cases a with
  | true => exact hk
  | false => exact hk'

theorem agree_failAt {c d : Cause} (h : c.variant = d.variant) (pos pos' : Position) :
    Agree f (failAt pos c) (failAt pos' d) :=
  fun _ _ _ => .error h

theorem agree_problemAt (c d : Problem) (pos pos' : Position) :
    Agree f (problemAt pos c) (problemAt pos' d) :=
  agree_failAt (c := .grammar c) (d := .grammar d) rfl pos pos'

theorem agree_unexpected (wanted : Expected) : Agree f (unexpected wanted) (unexpected wanted) :=
  fun _ _ _ => .error rfl

theorem agree_tooDeep : Agree f tooDeep tooDeep := fun _ _ _ => .error rfl

theorem agree_peek : Agree Token.shape peek peek := fun _ _ hp => .ok hp.peek hp

theorem agree_note (e e' : Event) : Agree id (note e) (note e') :=
  fun _ _ hp => .ok rfl ⟨hp.depth, hp.limit, hp.peek, hp.ahead⟩

theorem agree_peekIs (kind : Kind) : Agree id (peekIs kind) (peekIs kind) := by
  intro p q hp
  refine .ok ?_ hp
  rw [Token.kind_of_shape hp.peek]

theorem agree_advance : Agree Token.shape advance advance := by
  intro p q hp
  have hahead := hp.ahead
  unfold advance
  cases hpa : p.ahead with
  | nil =>
    rw [hpa] at hahead
    have hqa : q.ahead = [] := List.forall₂_nil_left_iff.1 hahead
    rw [hqa]
    exact .ok hp.peek ⟨hp.depth, hp.limit, hp.peek, List.Forall₂.nil⟩
  | cons a ahead =>
    rw [hpa] at hahead
    obtain ⟨b, ahead', hab, hrest, hqa⟩ := List.forall₂_cons_left_iff.1 hahead
    rw [hqa]
    generalize ha : a.outcome = o at hab
    generalize hb : b.outcome = o' at hab
    cases hab with
    | ok h =>
      simp only [ha, hb]
      exact .ok hp.peek ⟨hp.depth, hp.limit, h, hrest⟩
    | error h =>
      simp only [ha, hb]
      exact .error h

theorem agree_consumeIf (kind : Kind) : Agree id (consumeIf kind) (consumeIf kind) :=
  (agree_peekIs kind).ite (agree_advance.bind fun _ _ _ => .pure rfl) (.pure rfl)

theorem agree_require (wanted : Expected) (kinds : List Kind) :
    Agree Token.shape (require wanted kinds) (require wanted kinds) := by
  refine agree_peek.bind fun t u h => ?_
  rw [Token.kind_of_shape h]
  split
  · exact agree_advance
  · exact agree_unexpected wanted

/-- The rules come to the same end where `t` and `u` are in view. -/
def AgreeAt {α γ : Type} (t u : Token) (f : α → γ) (m n : Parse α) : Prop :=
  ∀ p q, p.Alike q → p.peek = t → q.peek = u → SameEnd f (m p) (n q)

variable {t u : Token}

theorem Agree.at (h : Agree f m n) : AgreeAt t u f m n := fun p q hp _ _ => h p q hp

theorem Agree.look {k l : Token → Parse β}
    (h : ∀ t u, t.shape = u.shape → AgreeAt t u g (k t) (l u)) :
    Agree g (peek >>= k) (peek >>= l) :=
  fun p q hp => h p.peek q.peek hp.peek p q hp rfl rfl

/-- What advancing gives is the token in view. -/
theorem AgreeAt.advance {k l : Token → Parse β} (h : Agree g (k t) (l u)) :
    AgreeAt t u g (advance >>= k) (advance >>= l) := by
  rintro p q hp rfl rfl
  obtain ⟨t, u, p', q', hpa, hqa, -, hp'⟩ | ⟨d, e, p', q', hpa, hqa, hde⟩ := agree_advance.cases hp
  · rw [bind_ok hpa, bind_ok hqa, (advance_keeps hpa).1, (advance_keeps hqa).1]
    exact h p' q' hp'
  · rw [bind_error hpa, bind_error hqa]
    exact .error hde

theorem Agree.requires (wanted : Expected) (kinds : List Kind) {k l : Token → Parse β}
    (h : ∀ t u, t.shape = u.shape → t.kind ∈ kinds → Agree g (k t) (l u)) :
    Agree g (require wanted kinds >>= k) (require wanted kinds >>= l) := by
  rw [require, bind_assoc, bind_assoc]
  refine .look fun t u htu => ?_
  rw [← Token.kind_of_shape htu]
  split
  · rename_i hk
    exact .advance (h t u htu (by simpa using hk))
  · exact fun _ _ _ _ _ => .error rfl

theorem agree_identifier (wanted : Expected) :
    Agree Ident.erase (identifier wanted) (identifier wanted) := by
  refine Agree.requires wanted _ fun t u h hk => .pure ?_
  rw [List.mem_singleton] at hk
  rw [Ident.erase, Ident.erase, Ident.ofToken, Ident.ofToken,
    Token.text_of_shape h (by rw [hk]; simp)]

theorem agree_terminator (wanted : Expected) : Agree id (terminator wanted) (terminator wanted) := by
  refine agree_peek.bind fun t u h => ?_
  rw [Token.kind_of_shape h]
  split
  · exact .pure rfl
  · exact (agree_require wanted _).bind fun _ _ _ => .pure rfl

theorem Agree.nested (h : Agree f m n) : Agree f (nested m) (nested n) := by
  intro p q hp
  unfold Parse.nested
  by_cases hd : p.limit ≤ p.depth
  · have hd' : q.limit ≤ q.depth := by rwa [← hp.limit, ← hp.depth]
    rw [if_pos hd, if_pos hd']
    exact agree_tooDeep p q hp
  · have hd' : ¬q.limit ≤ q.depth := by rwa [← hp.limit, ← hp.depth]
    rw [if_neg hd, if_neg hd']
    have hend := h p.enter q.enter
      ⟨congrArg (· + 1) hp.depth, hp.limit, hp.peek, hp.ahead⟩
    generalize m p.enter = a at hend
    generalize n q.enter = b at hend
    cases hend with
    | ok h hq => exact .ok h ⟨congrArg (· - 1) hq.depth, hq.limit, hq.peek, hq.ahead⟩
    | error h => exact .error h

theorem Agree.bounded {m n : Nat → Parse α} (h : ∀ k, Agree f (m k) (n k)) :
    Agree f (bounded m) (bounded n) := by
  intro p q hp
  unfold Parse.bounded
  rw [hp.ahead.length_eq]
  exact h _ p q hp

/-- What is left of a round: whether it was the last, and its state. -/
def stepShape (h : σ → γ) : ForInStep σ → Bool × γ
  | .done s => (true, h s)
  | .yield s => (false, h s)

theorem Agree.loopFor {h : σ → γ} {body body' : σ → Parse (ForInStep σ)}
    (hbody : ∀ s t, h s = h t → Agree (stepShape h) (body s) (body' t)) (k : Nat) {s t : σ}
    (hs : h s = h t) : Agree h (loopFor body k s) (loopFor body' k t) := by
  induction k generalizing s t with
  | zero => exact .pure hs
  | succ k ih =>
    refine (hbody s t hs).bind fun a b hab => ?_
    cases a with
    | done s' =>
      cases b with
      | done t' => exact .pure (Prod.mk.inj hab).2
      | yield t' => cases (Prod.mk.inj hab).1
    | yield s' =>
      cases b with
      | done t' => cases (Prod.mk.inj hab).1
      | yield t' => exact ih (Prod.mk.inj hab).2

theorem Agree.loop {h : σ → γ} {body body' : σ → Parse (ForInStep σ)}
    (hbody : ∀ s t, h s = h t → Agree (stepShape h) (body s) (body' t)) {s t : σ} (hs : h s = h t) :
    Agree h (loop body s) (loop body' t) :=
  .bounded fun k => .loopFor hbody k hs

theorem Agree.commaListFor (stop : Kind) (h : Agree f m n) (k : Nat) :
    Agree (List.map f) (commaListFor stop m k) (commaListFor stop n k) := by
  induction k with
  | zero => exact .pure rfl
  | succ k ih =>
    refine (agree_peekIs stop).ite (.pure rfl) (h.bind fun a b hab => ?_)
    refine (agree_consumeIf _).ite ?_ (.pure ?_)
    · refine ih.bind fun as bs hs => .pure ?_
      rw [List.map_cons, List.map_cons, hab, hs]
    · rw [List.map_singleton, List.map_singleton, hab]

theorem Agree.commaList (stop : Kind) (h : Agree f m n) :
    Agree (List.map f) (commaList stop m) (commaList stop n) :=
  .bounded (h.commaListFor stop)

theorem Agree.termListFor (stop : Kind) (wanted : Expected) (h : Agree f m n) (k : Nat) :
    Agree (List.map f) (termListFor stop wanted m k) (termListFor stop wanted n k) := by
  induction k with
  | zero => exact .pure rfl
  | succ k ih =>
    refine (agree_peekIs stop).ite (.pure rfl) (h.bind fun a b hab => ?_)
    refine (agree_terminator wanted).bind fun _ _ _ => ih.bind fun as bs hs => .pure ?_
    rw [List.map_cons, List.map_cons, hab, hs]

theorem Agree.termList (stop : Kind) (wanted : Expected) (h : Agree f m n) :
    Agree (List.map f) (termList stop wanted m) (termList stop wanted n) :=
  .bounded (h.termListFor stop wanted)

theorem Agree.openedListFor (opener : Kind) (h : Agree f m n) (k : Nat) :
    Agree (List.map f) (openedListFor opener m k) (openedListFor opener n k) := by
  induction k with
  | zero => exact .pure rfl
  | succ k ih =>
    refine (agree_consumeIf opener).ite (h.bind fun a b hab => ?_) (.pure rfl)
    refine ih.bind fun as bs hs => .pure ?_
    rw [List.map_cons, List.map_cons, hab, hs]

theorem Agree.openedList (opener : Kind) (h : Agree f m n) :
    Agree (List.map f) (openedList opener m) (openedList opener n) :=
  .bounded (h.openedListFor opener)

theorem agree_stringLit {t u : Token} (h : t.shape = u.shape)
    (hk : t.kind ≠ .delimiter .semicolon) : Agree StringLit.erase (stringLit t) (stringLit u) := by
  unfold stringLit
  rw [← Token.value_of_shape h]
  split
  · refine .pure ?_
    rw [StringLit.erase, StringLit.erase, Token.text_of_shape h hk]
  · exact agree_failAt rfl _ _

end Parse
end GoSyntax
