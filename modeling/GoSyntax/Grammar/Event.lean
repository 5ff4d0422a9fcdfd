import GoSyntax.Token.Basic
import GoSyntax.Tree.Leaf

/-! What a parser notes down while it works. -/
namespace GoSyntax

inductive Event
  | token (kind : Kind) (pos : Position)
  | packageClause (name : Ident)
  | importSpec (path : Text)
  /-- A parameter took the type of a later one. -/
  | inferredParam (name : Ident)
  | function (name : Ident) (start : Position) (isMethod hasBody : Bool)
  deriving DecidableEq, Repr

namespace Event

def ofToken (t : Token) : Event := .token t.kind t.pos

/-- Single tokens are noted at the finer of the two levels. -/
def isFine : Event → Bool
  | token .. => true
  | _ => false

def message : Event → String
  | token .. => "token"
  | packageClause _ => "package clause"
  | importSpec _ => "import"
  | inferredParam _ => "parameter type taken from a later entry"
  | function .. => "function declaration"

/-- The parts of a note with their names, the names in order. -/
def fields : Event → List (String × String)
  | e@(token kind pos) =>
    [("column", toString pos.column), ("kind", kind.spelling), ("line", toString pos.line),
      ("message", e.message)]
  | e@(packageClause name) => [("message", e.message), ("package", String.ofList name.name)]
  | e@(importSpec path) => [("message", e.message), ("path", String.ofList path)]
  | e@(inferredParam name) =>
    [("line", toString name.pos.line), ("message", e.message), ("name", String.ofList name.name)]
  | e@(function name start isMethod hasBody) =>
    [("has_body", toString hasBody), ("line", toString start.line), ("message", e.message),
      ("method", toString isMethod), ("name", String.ofList name.name)]

end Event
end GoSyntax
