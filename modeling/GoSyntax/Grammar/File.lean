import GoSyntax.Grammar.Type
import GoSyntax.Tree.Declaration

/-! Function bodies, declarations and whole files. -/
namespace GoSyntax
namespace Parse

/-- The tokens up to the brace that closes the block from `start`, `opened` braces being open inside
it. -/
def blockTokensFor (start : Position) : (opened rounds : Nat) → Parse (List Token)
  | _, 0 => pure []
  | opened, n + 1 => fun p =>
    match p.peek.kind with
    | .endOfFile => problemAt p.peek.pos (.openBlock start) p
    | .delimiter .lbrace =>
      if p.limit ≤ p.depth + opened then tooDeep p
      else (do return (← advance) :: (← blockTokensFor start (opened + 1) n)) p
    | .delimiter .rbrace =>
      match opened with
      | 0 => .ok [] p
      | k + 1 => (do return (← advance) :: (← blockTokensFor start k n)) p
    | _ => (do return (← advance) :: (← blockTokensFor start opened n)) p

/-- A function body. Only its braces have to match; they count as levels. -/
def block : Parse Block := do
  let opening ← require .blockStart [.delimiter .lbrace]
  let tokens ← bounded (blockTokensFor opening.pos 0)
  let closing ← require .blockEnd [.delimiter .rbrace]
  return ⟨opening.pos, tokens, closing.stop⟩

/-- The receiver of a method, a list of exactly one parameter. -/
def receiver? : Parse (Option ParamList) := do
  if ← peekIs (.delimiter .lparen) then
    let list ← paramList type? true
    match list.params with
    | [_] => return some list
    | [] => problemAt list.start .noReceiver
    | _ => problemAt list.start .manyReceivers
  else return none

/-- A function body with the semicolon behind it, or just that semicolon. -/
def body? : Parse (Option Block) := do
  if ← peekIs (.delimiter .lbrace) then
    let b ← block
    let _ ← require .bodyEnd [.delimiter .semicolon]
    return some b
  else
    let _ ← require .bodyOrEnd [.delimiter .semicolon]
    return none

def funcDecl : Parse FuncDecl := do
  let opening ← require .funcKeyword [.keyword .funcKw]
  let receiver ← receiver?
  let name ← identifier .functionName
  let sig ← signature type? true
  let body ← body?
  note (.function name opening.pos receiver.isSome body.isSome)
  return ⟨opening.pos, receiver, name, sig, body⟩

/-- A declaration outside of functions. Those that are not covered are refused and left where they
are. -/
def decl : Parse Decl := do
  let t ← peek
  match t.kind with
  | .keyword .funcKw => .func <$> funcDecl
  | .keyword .constKw => failAt t.pos (.unsupported .constKw)
  | .keyword .typeKw => failAt t.pos (.unsupported .typeKw)
  | .keyword .varKw => failAt t.pos (.unsupported .varKw)
  | .keyword .importKw => problemAt t.pos .lateImport
  | _ => unexpected .declaration

def importName? : Parse (Option ImportName) := do
  let t ← peek
  if ← consumeIf (.delimiter .dot) then return some (.dot t.pos)
  else if ← peekIs .identifier then
    let name ← identifier .identifier
    return some (if name.isBlank then .blank name.pos else .named name)
  else return none

def importSpec : Parse Import := do
  let first ← peek
  let name ← importName?
  let t ← require .importPath [.literal .interpretedString, .literal .rawString]
  let path ← stringLit t
  note (.importSpec path.value)
  return ⟨first.pos, name, path⟩

/-- One import or a group of them, behind the keyword. -/
def importGroup : Parse (List Import) := do
  let specs ←
    if ← consumeIf (.delimiter .lparen) then
      let specs ← termList (.delimiter .rparen) .importSpecEnd importSpec
      let _ ← require .importGroupEnd [.delimiter .rparen]
      pure specs
    else List.singleton <$> importSpec
  let _ ← require .importEnd [.delimiter .semicolon]
  return specs

/-- Declarations up to the end of the source, with any number of semicolons around them. -/
def declsFor : (rounds : Nat) → Parse (List Decl)
  | 0 => pure []
  | n + 1 => do
    if ← consumeIf (.delimiter .semicolon) then declsFor n
    else if ← peekIs .endOfFile then return []
    else
      let d ← decl
      return d :: (← declsFor n)

def file : Parse File := do
  let opening ← require .packageClause [.keyword .packageKw]
  let package ← identifier .packageName
  let _ ← require .packageEnd [.delimiter .semicolon]
  note (.packageClause package)
  let imports ← openedList (.keyword .importKw) importGroup
  let decls ← bounded declsFor
  return ⟨opening.pos, package, imports.flatten, decls⟩

end Parse

/-- Reads a file from a text. -/
def parseText (limit : Nat) (file : String) (s : Text) : Except Error File := do
  match Parse.file (← Parser.ofText limit file s) with
  | .ok f _ => return f
  | .error e _ => throw e

/-- Reads a file from a byte source. -/
def parseFeed (limit : Nat) (file : String) (feed : Feed) : Except Error File := do
  match Parse.file (← Parser.ofFeed limit file feed) with
  | .ok f _ => return f
  | .error e _ => throw e

end GoSyntax
