import GoSyntax.Grammar.Parser
import GoSyntax.Tree.Type

/-! Parameter lists and signatures. Whether an identifier that stands alone is a type or a name is
settled once the whole list has been read. -/
namespace GoSyntax
namespace Parse

/-- An entry of a parameter list as it is written. -/
inductive Entry
  /-- A variadic type without name. -/
  | variadic (type : TypeRef)
  /-- A type that is no lone identifier. -/
  | plain (type : TypeRef)
  /-- A lone identifier, name or type, read as a type. -/
  | bare (type : TypeRef)
  | named (name : Ident) (isVariadic : Bool) (type : TypeRef)

namespace Entry

/-- The entry's type, if a lone identifier is one. -/
def typeRef : Entry → TypeRef
  | variadic type | plain type | bare type | named _ _ type => type

def isVariadic : Entry → Bool
  | variadic _ => true
  | named _ v _ => v
  | _ => false

def isNamed : Entry → Bool
  | named .. => true
  | _ => false

/-- The entry as a parameter without name. -/
def unnamed (e : Entry) : Param := ⟨none, false, e.isVariadic, e.typeRef⟩

end Entry

/-- A type, given the rule that finds one if there is one. -/
def required (type? : Parse (Option TypeRef)) : Parse TypeRef := do
  match ← type? with
  | some type => return type
  | none => unexpected .type

/-- A type, and whether it is just an identifier; parentheses make a difference. -/
def typeOrIdent (type? : Parse (Option TypeRef)) : Parse (TypeRef × Bool) := do
  let startsBare ← peekIs .identifier
  let type ← required type?
  return (type, startsBare && type.bareIdent?.isSome)

/-- The identifier that a type consists of, `defect` telling where there had to be one. -/
def extractIdent (defect : Defect) (type : TypeRef) : Parse Ident :=
  match type.bareIdent? with
  | some name => return name
  | none => failAt type.start (.defect defect)

def entry (type? : Parse (Option TypeRef)) : Parse Entry := do
  if ← consumeIf (.operator .ellipsis) then return .variadic (← required type?)
  else
    let (type, isBare) ← typeOrIdent type?
    let ends := [.delimiter .comma, .delimiter .rparen].contains (← peek).kind
    if isBare && !ends then
      let name ← extractIdent .entryName type
      let isVariadic ← consumeIf (.operator .ellipsis)
      return .named name isVariadic (← required type?)
    else return if isBare then .bare type else .plain type

/-- The first variadic entry that another one follows. -/
def earlyVariadic? : List Entry → Option Entry
  | [] | [_] => none
  | e :: es => if e.isVariadic then some e else earlyVariadic? es

/-- Gives each lone identifier the nearest type to its right, from right to left. Also gives the type
that an entry further left would take. -/
def resolve : List Entry → Parse (List Param × Option TypeRef)
  | [] => return ([], none)
  | e :: es => do
    let (params, carried) ← resolve es
    match e, carried with
    | .named name v type, _ => return (⟨some name, false, v, type⟩ :: params, some type)
    | .bare lone, some type =>
      let name ← extractIdent .entryName lone
      note (.inferredParam name)
      return (⟨some name, true, false, type⟩ :: params, carried)
    | e, _ => problemAt e.typeRef.start .mixedParams

/-- Turns the entries of a list that opens at `start` into parameters. -/
def params (start : Position) (namesRequired : Bool) (entries : List Entry) :
    Parse (List Param) := do
  match earlyVariadic? entries with
  | some e => problemAt e.typeRef.start .earlyVariadic
  | none =>
    if entries.any Entry.isNamed then return (← resolve entries).1
    else if namesRequired && !entries.isEmpty then problemAt start .unnamedParams
    else return entries.map Entry.unnamed

def paramList (type? : Parse (Option TypeRef)) (namesRequired : Bool) : Parse ParamList := nested do
  let opening ← require .paramsStart [.delimiter .lparen]
  let entries ← commaList (.delimiter .rparen) (entry type?)
  let closing ← require .paramsEnd [.delimiter .rparen]
  return ⟨opening.pos, ← params opening.pos namesRequired entries, closing.stop⟩

/-- Results in parentheses, or a type that stands alone. -/
def results (type? : Parse (Option TypeRef)) : Parse (Option ParamList) := do
  if ← peekIs (.delimiter .lparen) then some <$> paramList type? false
  else return (← type?).map fun type => ⟨type.start, [⟨none, false, false, type⟩], type.stop⟩

def signature (type? : Parse (Option TypeRef)) (namesRequired : Bool) : Parse Signature :=
  nested do
    let args ← paramList type? namesRequired
    return ⟨args, ← results type?⟩

end Parse
end GoSyntax
