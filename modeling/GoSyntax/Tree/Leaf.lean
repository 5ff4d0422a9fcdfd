import GoSyntax.Token.Basic

/-! Leaves of the trees: names and literals with their positions. -/
namespace GoSyntax

structure Ident where
  name : Text
  pos : Position
  deriving DecidableEq, Repr

namespace Ident

/-- The identifier that a token spells. -/
def ofToken (t : Token) : Ident := ⟨t.text, t.pos⟩

def isBlank (i : Ident) : Bool := i.name == ['_']

def start (i : Ident) : Position := i.pos

def stop (i : Ident) : Position := i.pos.moved i.name.length

end Ident

/-- A string literal, as written and as it reads. -/
structure StringLit where
  pos : Position
  raw : Text
  value : Text
  deriving DecidableEq, Repr

def StringLit.stop (s : StringLit) : Position := s.pos.moved s.raw.length

/-- Any literal as an operand. -/
structure BasicLit where
  pos : Position
  form : LiteralForm
  raw : Text
  value : Value
  deriving DecidableEq, Repr

def BasicLit.stop (l : BasicLit) : Position := l.pos.moved l.raw.length

/-- A name, alone or behind the name of its package. -/
structure NamedType where
  package : Option Ident
  name : Ident
  deriving DecidableEq, Repr

namespace NamedType

def start (n : NamedType) : Position := (n.package.getD n.name).pos

def stop (n : NamedType) : Position := n.name.stop

def idents (n : NamedType) : List Ident := n.package.toList ++ [n.name]

end NamedType
end GoSyntax
