import GoSyntax.Proofs.Grammar.Bare
import GoSyntax.Proofs.Grammar.Sure

/-! From entries to parameters: how lone identifiers take the types to their right, and which entry is
to blame when they cannot. -/
namespace GoSyntax
namespace Parse
namespace Entry

/-- Every entry is a name, and those without a type take the next one to their right. The last
argument is the type that an entry further left would take. -/
inductive Resolves : List Entry → List Param → Option TypeRef → Prop
  | nil : Resolves [] [] none
  | named {es : List Entry} {ps : List Param} {c : Option TypeRef} (name : Ident) (v : Bool)
    (type : TypeRef) (h : Resolves es ps c) :
    Resolves (.named name v type :: es) (⟨some name, false, v, type⟩ :: ps) (some type)
  | bare {es : List Entry} {ps : List Param} {type : TypeRef} (name : Ident)
    (h : Resolves es ps (some type)) :
    Resolves (.lone name :: es) (⟨some name, true, false, type⟩ :: ps) (some type)

/-- The entry is no name, or a name that finds no type to its right. -/
def Offends (carried : Option TypeRef) : Entry → Prop
  | .named .. => False
  | .bare _ => carried = none
  | _ => True

/-- `e` is the rightmost entry that offends. -/
def Blamed (es : List Entry) (e : Entry) : Prop :=
  ∃ l r ps c, es = l ++ e :: r ∧ Resolves r ps c ∧ Offends c e

variable {es : List Entry} {ps : List Param} {c : Option TypeRef}

theorem Resolves.carried_none (h : Resolves es ps none) : es = [] := by
  cases h
  rfl

/-- What is carried on is the type of the first parameter. -/
theorem Resolves.head {type : TypeRef} (h : Resolves es ps (some type)) :
    ∃ q qs, ps = q :: qs ∧ q.type = type := by
  cases h with
  | named name v _ _ => exact ⟨_, _, rfl, rfl⟩
  | bare name _ => exact ⟨_, _, rfl, rfl⟩

theorem Resolves.carried_some (h : Resolves es ps c) (hne : es ≠ []) : ∃ type, c = some type := by
  cases h with
  | nil => exact absurd rfl hne
  | named _ _ type _ => exact ⟨type, rfl⟩
  | bare _ _ => exact ⟨_, rfl⟩

end Entry

open Entry GoSyntax.Parser

variable {p : Parser}

/-- Resolving entries writes notes and does nothing else to the state. -/
theorem resolve_cases {es : List Entry} (hes : ∀ e ∈ es, e.Proper) (p : Parser) :
    (∃ ps c log, resolve es p = .ok (ps, c) { p with log } ∧ Resolves es ps c) ∨
      ∃ e log, resolve es p = .error ⟨e.typeRef.start, .grammar .mixedParams⟩ { p with log } ∧
        Blamed es e := by
  induction es with
  | nil => exact Or.inl ⟨[], none, p.log, rfl, .nil⟩
  | cons e es ih =>
    obtain ⟨he, hes⟩ := List.forall_mem_cons.1 hes
    rcases ih hes with ⟨ps, c, log, hr, hres⟩ | ⟨d, log, hr, l, r, ps, c, hl, hres, hoff⟩
    · have hbind := fun f => bind_ok (β := List Param × Option TypeRef) hr f
      cases he with
      | named name v type =>
        refine Or.inl ⟨_, _, log, ?_, hres.named name v type⟩
        rw [resolve, hbind]
        rfl
      | lone name =>
        cases c with
        | some type =>
          refine Or.inl ⟨_, _, .inferredParam name :: log, ?_, hres.bare name⟩
          rw [resolve, hbind]
          rfl
        | none =>
          refine Or.inr ⟨.lone name, log, ?_, [], es, ps, none, rfl, hres, rfl⟩
          rw [resolve, hbind]
          rfl
      | plain type =>
        refine Or.inr ⟨.plain type, log, ?_, [], es, ps, c, rfl, hres, trivial⟩
        rw [resolve, hbind]
        rfl
      | variadic type =>
        refine Or.inr ⟨.variadic type, log, ?_, [], es, ps, c, rfl, hres, trivial⟩
        rw [resolve, hbind]
        rfl
    · refine Or.inr ⟨d, log, ?_, e :: l, r, ps, c, by rw [hl]; rfl, hres, hoff⟩
      rw [resolve, bind_error hr]

theorem earlyVariadic?_eq_some {es : List Entry} {e : Entry} (h : earlyVariadic? es = some e) :
    ∃ l r, es = l ++ e :: r ∧ r ≠ [] ∧ e.isVariadic = true ∧ ∀ d ∈ l, d.isVariadic = false := by
  fun_induction earlyVariadic? es with
  | case1 => cases h
  | case2 => cases h
  | case3 d es hne hv =>
    cases h
    exact ⟨[], es, rfl, hne, hv, by simp⟩
  | case4 d es hne hv ih =>
    obtain ⟨l, r, hl, hr, hv', hall⟩ := ih h
    refine ⟨d :: l, r, by rw [hl]; rfl, hr, hv', ?_⟩
    intro d' hd'
    rcases List.mem_cons.1 hd' with rfl | hd'
    · simpa using hv
    · exact hall d' hd'

theorem earlyVariadic?_eq_none {es : List Entry} (h : earlyVariadic? es = none) {l r : List Entry}
    {e : Entry} (hes : es = l ++ e :: r) (hr : r ≠ []) : e.isVariadic = false := by
  fun_induction earlyVariadic? es generalizing l with
  | case1 => cases l <;> cases hes
  | case2 d =>
    cases l with
    | nil => cases hes; exact absurd rfl hr
    | cons d' l => cases l <;> cases hes
  | case3 d es hne hv => cases h
  | case4 d es hne hv =>
    rename_i ih
    cases l with
    | nil =>
      cases hes
      simpa using hv
    | cons d' l =>
      cases hes
      exact ih h rfl

theorem earlyVariadic?_tail {e : Entry} {es : List Entry} (h : earlyVariadic? (e :: es) = none) :
    earlyVariadic? es = none := by
  cases es with
  | nil => rfl
  | cons d es =>
    rw [earlyVariadic?] at h
    split at h
    · cases h
    · exact h
    · simp

theorem params_of_early {es : List Entry} {e : Entry} (start : Position) (namesRequired : Bool)
    (h : earlyVariadic? es = some e) (p : Parser) :
    params start namesRequired es p =
      .error ⟨e.typeRef.start, .grammar .earlyVariadic⟩ p := by
  simp only [params, h]
  rfl

theorem params_of_named {es : List Entry} (start : Position) (namesRequired : Bool)
    (h : earlyVariadic? es = none) (hn : es.any Entry.isNamed = true) :
    params start namesRequired es = Prod.fst <$> resolve es := by
  simp only [params, h, hn, if_true, map_eq_pure_bind]

theorem params_of_unnamed {es : List Entry} (start : Position) (namesRequired : Bool)
    (h : earlyVariadic? es = none) (hn : es.any Entry.isNamed = false) :
    params start namesRequired es =
      if namesRequired && !es.isEmpty then problemAt start .unnamedParams
      else pure (es.map Entry.unnamed) := by
  simp only [params, h, hn, Bool.false_eq_true, if_false]

namespace Entry

variable {es : List Entry} {ps : List Param}

/-- Nothing follows a variadic entry. -/
def VariadicLast (es : List Entry) : Prop :=
  ∀ l e r, es = l ++ e :: r → e.isVariadic = true → r = []

/-- Some entry has a name of its own. -/
def HasNamed (es : List Entry) : Prop := ∃ e ∈ es, e.isNamed = true

theorem variadicLast_iff : VariadicLast es ↔ earlyVariadic? es = none := by
  constructor
  · intro h
    cases hv : earlyVariadic? es with
    | none => rfl
    | some e =>
      obtain ⟨l, r, hes, hr, hvar, -⟩ := earlyVariadic?_eq_some hv
      exact absurd (h l e r hes hvar) hr
  · intro h l e r hes hvar
    by_cases hr : r = []
    · exact hr
    · rw [earlyVariadic?_eq_none h hes hr] at hvar
      cases hvar

theorem any_isNamed_iff : es.any Entry.isNamed = true ↔ HasNamed es := List.any_eq_true

/-- What the entries of an accepted list declare: types without names, or names that all find a
type. -/
inductive Settles (namesRequired : Bool) : List Entry → List Param → Prop
  | types {es : List Entry} (hv : VariadicLast es) (hn : ¬HasNamed es)
    (hr : namesRequired = true → es = []) : Settles namesRequired es (es.map unnamed)
  | names {es : List Entry} {ps : List Param} {c : Option TypeRef} (hv : VariadicLast es)
    (hn : HasNamed es) (h : Resolves es ps c) : Settles namesRequired es ps

theorem settles_of_params {start : Position} {namesRequired : Bool} {p q : Parser}
    (hes : ∀ e ∈ es, e.Proper) (h : params start namesRequired es p = .ok ps q) :
    Settles namesRequired es ps ∧ ∃ log, q = { p with log } := by
  cases hv : earlyVariadic? es with
  | some e =>
    rw [params_of_early start namesRequired hv] at h
    cases h
  | none =>
    have hlast := variadicLast_iff.2 hv
    cases hn : es.any isNamed with
    | true =>
      rw [params_of_named start namesRequired hv hn, map_eq_pure_bind] at h
      rcases resolve_cases hes p with ⟨ps', c, log, hr, hres⟩ | ⟨e, log, hr, -⟩
      · rw [bind_ok hr] at h
        cases h
        exact ⟨.names hlast (any_isNamed_iff.1 hn) hres, log, rfl⟩
      · rw [bind_error hr] at h
        cases h
    | false =>
      rw [params_of_unnamed start namesRequired hv hn] at h
      split at h
      · cases h
      · rename_i hreq
        cases h
        refine ⟨.types hlast (fun hnamed => ?_) fun hr => ?_, p.log, rfl⟩
        · rw [any_isNamed_iff.2 hnamed] at hn
          cases hn
        · simpa [hr] using hreq

end Entry

end Parse
end GoSyntax
