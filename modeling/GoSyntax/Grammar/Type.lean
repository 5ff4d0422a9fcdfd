import GoSyntax.Grammar.Expr
import GoSyntax.Grammar.Params

/-! Types. Each rule is given the rule that finds a type one level deeper. -/
namespace GoSyntax
namespace Parse

/-- A name, alone or behind the name of its package. -/
def namedType : Parse NamedType := do
  let first ← identifier .identifier
  if ← consumeIf (.delimiter .dot) then return ⟨some first, ← identifier .typeName⟩
  else return ⟨none, first⟩

/-- The string literal that may follow a field. -/
def tag? : Parse (Option StringLit) := do
  if (← peek).kind.isString then some <$> (advance >>= stringLit)
  else return none

def parenType (type? : Parse (Option TypeRef)) : Parse TypeRef := do
  let _ ← advance
  let inner ← required type?
  let _ ← require .typeParenEnd [.delimiter .rparen]
  return inner

/-- Arrays and slices. -/
def bracketType (type? : Parse (Option TypeRef)) : Parse TypeRef := do
  let opening ← advance
  if ← consumeIf (.delimiter .rbracket) then return .slice opening.pos (← required type?)
  else if ← consumeIf (.operator .ellipsis) then
    let _ ← require .ellipsisBracket [.delimiter .rbracket]
    return .ellipsisArray opening.pos (← required type?)
  else
    let length ← expr
    let _ ← require .lengthBracket [.delimiter .rbracket]
    return .array opening.pos length (← required type?)

def mapType (type? : Parse (Option TypeRef)) : Parse TypeRef := do
  let opening ← advance
  let _ ← require .mapBracket [.delimiter .lbracket]
  let key ← required type?
  let _ ← require .keyBracket [.delimiter .rbracket]
  return .map opening.pos key (← required type?)

/-- The direction of a channel type behind its first token. -/
def chanDir (opening : Token) : Parse ChanDir := do
  if opening.kind = .operator .chan then
    let _ ← require .chanKeyword [.keyword .chanKw]
    return .recv
  else if ← consumeIf (.operator .chan) then return .send
  else return .both

def chanType (type? : Parse (Option TypeRef)) : Parse TypeRef := do
  let opening ← advance
  let dir ← chanDir opening
  return .chan opening.pos dir (← required type?)

/-- Whether a lone identifier before a token of this kind is an embedded field and not a name. -/
def endsField (kind : Kind) : Bool :=
  kind == .delimiter .semicolon || kind == .delimiter .rbrace || kind.isString

def fieldGroup (type? : Parse (Option TypeRef)) : Parse FieldGroup := do
  let (first, isBare) ← typeOrIdent type?
  let ends := endsField (← peek).kind
  if isBare && !ends then
    let name ← extractIdent .fieldName first
    let names ← openedList (.delimiter .comma) (identifier .fieldName)
    let type ← required type?
    return ⟨name :: names, type, ← tag?⟩
  else return ⟨[], first, ← tag?⟩

def structBody (type? : Parse (Option TypeRef)) (start : Position) : Parse TypeRef := do
  let _ ← require .structBrace [.delimiter .lbrace]
  let fields ← termList (.delimiter .rbrace) .fieldEnd (fieldGroup type?)
  let closing ← require .structEnd [.delimiter .rbrace]
  return .struct start fields closing.stop

def interfaceElem (type? : Parse (Option TypeRef)) : Parse InterfaceElem := do
  let name ← identifier .elementName
  if ← consumeIf (.delimiter .dot) then return .embedded ⟨some name, ← identifier .typeName⟩
  else if ← peekIs (.delimiter .lparen) then return .method name (← signature type? false)
  else return .embedded ⟨none, name⟩

def interfaceBody (type? : Parse (Option TypeRef)) (start : Position) : Parse TypeRef := do
  let _ ← require .interfaceBrace [.delimiter .lbrace]
  let elems ← termList (.delimiter .rbrace) .elementEnd (interfaceElem type?)
  let closing ← require .interfaceEnd [.delimiter .rbrace]
  return .interface start elems closing.stop

/-- The type that opens with the token in view, if that token can open one. -/
def typeBody (type? : Parse (Option TypeRef)) : Parse (Option TypeRef) := do
  match (← peek).kind with
  | .delimiter .lparen => some <$> parenType type?
  | .identifier => (some ∘ .named) <$> namedType
  | .delimiter .lbracket => some <$> bracketType type?
  | .keyword .structKw =>
    let opening ← advance
    some <$> nested (structBody type? opening.pos)
  | .operator .mul =>
    let opening ← advance
    (some ∘ .pointer opening.pos) <$> required type?
  | .keyword .funcKw =>
    let opening ← advance
    (some ∘ .func opening.pos) <$> signature type? false
  | .keyword .interfaceKw =>
    let opening ← advance
    some <$> nested (interfaceBody type? opening.pos)
  | .keyword .mapKw => some <$> mapType type?
  | .keyword .chanKw | .operator .chan => some <$> chanType type?
  | _ => return none

/-- A type, if one opens here, where `room` more levels can be opened. -/
def typeRule : (room : Nat) → Parse (Option TypeRef)
  | 0 => tooDeep
  | room + 1 => fun p => nested (typeBody (typeRule room)) p

/-- A type, if one opens here; otherwise nothing is consumed. -/
def type? : Parse (Option TypeRef) := fun p => typeRule p.room p

def type : Parse TypeRef := required type?

end Parse
end GoSyntax
