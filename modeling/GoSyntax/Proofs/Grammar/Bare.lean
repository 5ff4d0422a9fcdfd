import GoSyntax.Grammar.Type

/-! Lone identifiers. A type that is marked as one consists of a name, so that the rules which go by
the mark find the name they want. -/
namespace GoSyntax

theorem TypeRef.eq_of_bareIdent {type : TypeRef} {name : Ident}
    (h : type.bareIdent? = some name) : type = .named ⟨none, name⟩ := by
  unfold bareIdent? at h
  split at h
  · cases h
    rfl
  · cases h

namespace Parse

namespace Entry

/-- The entry that is just the identifier `name`. -/
@[match_pattern]
abbrev lone (name : Ident) : Entry := .bare (.named ⟨none, name⟩)

/-- The mark of the entry tells the truth: what counts as a lone identifier is one. -/
inductive Proper : Entry → Prop
  | variadic (type : TypeRef) : Proper (.variadic type)
  | plain (type : TypeRef) : Proper (.plain type)
  | lone (name : Ident) : Proper (.lone name)
  | named (name : Ident) (v : Bool) (type : TypeRef) : Proper (.named name v type)

end Entry

/-- A type, and the identifier that it consists of if it is marked as one. -/
def typeOrName (type? : Parse (Option TypeRef)) : Parse (TypeRef × Option Ident) := do
  let startsBare ← peekIs .identifier
  let type ← required type?
  return (type, if startsBare then type.bareIdent? else none)

variable (type? : Parse (Option TypeRef))

theorem typeOrIdent_bind {α : Type} (f : TypeRef × Bool → Parse α) :
    typeOrIdent type? >>= f = typeOrName type? >>= fun r => f (r.1, r.2.isSome) := by
  simp only [typeOrIdent, typeOrName, bind_assoc, pure_bind]
  refine bind_congr fun b => bind_congr fun type => ?_
  cases b <;> rfl

/-- Two rules that go on from a type do the same if they do so from one that is not marked and from
an identifier. -/
theorem typeOrName_bind {α : Type} {f g : TypeRef × Option Ident → Parse α}
    (hnone : ∀ type, f (type, none) = g (type, none))
    (hsome : ∀ name, f (.named ⟨none, name⟩, some name) = g (.named ⟨none, name⟩, some name)) :
    typeOrName type? >>= f = typeOrName type? >>= g := by
  simp only [typeOrName, bind_assoc, pure_bind]
  refine bind_congr fun b => bind_congr fun type => ?_
  cases hname : if b = true then type.bareIdent? else none with
  | none => exact hnone type
  | some name =>
    cases b with
    | false => cases hname
    | true =>
      obtain rfl := TypeRef.eq_of_bareIdent hname
      exact hsome name

/-- The rule for entries without the failure that its mark rules out. -/
theorem entry_eq : entry type? = do
    if ← consumeIf (.operator .ellipsis) then return .variadic (← required type?)
    else
      let (type, name?) ← typeOrName type?
      match name? with
      | none => return .plain type
      | some name =>
        if [.delimiter .comma, .delimiter .rparen].contains (← peek).kind then return .lone name
        else
          let isVariadic ← consumeIf (.operator .ellipsis)
          return .named name isVariadic (← required type?) := by
  unfold entry
  refine bind_congr fun b => ?_
  cases b with
  | true => rfl
  | false =>
    refine (typeOrIdent_bind type? _).trans (typeOrName_bind type? (fun type => rfl) fun name => ?_)
    refine bind_congr fun t => ?_
    cases [Kind.delimiter .comma, .delimiter .rparen].contains t.kind <;> rfl

/-- The rule for fields without the failure that its mark rules out. -/
theorem fieldGroup_eq : fieldGroup type? = do
    let (first, name?) ← typeOrName type?
    let ends := endsField (← peek).kind
    match name?, ends with
    | some name, false =>
      let names ← openedList (.delimiter .comma) (identifier .fieldName)
      let type ← required type?
      return ⟨name :: names, type, ← tag?⟩
    | _, _ => return ⟨[], first, ← tag?⟩ := by
  unfold fieldGroup
  refine (typeOrIdent_bind type? _).trans (typeOrName_bind type? (fun type => rfl) fun name => ?_)
  refine bind_congr fun t => ?_
  cases endsField t.kind <;> rfl

end Parse
end GoSyntax
