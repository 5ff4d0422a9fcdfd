import GoSyntax.Tree.Expr

/-! Types as they are written, with the signatures, parameters, fields and methods inside them. -/
namespace GoSyntax

/-- Which way a channel may be used. -/
inductive ChanDir
  | send | recv | both
  deriving DecidableEq, Repr

mutual

inductive TypeRef
  | named (name : NamedType)
  | array (start : Position) (length : Expr) (elem : TypeRef)
  | slice (start : Position) (elem : TypeRef)
  | ellipsisArray (start : Position) (elem : TypeRef)
  | struct (start : Position) (fields : List FieldGroup) (stop : Position)
  | pointer (start : Position) (elem : TypeRef)
  | func (start : Position) (signature : Signature)
  | interface (start : Position) (elems : List InterfaceElem) (stop : Position)
  | map (start : Position) (key value : TypeRef)
  | chan (start : Position) (dir : ChanDir) (elem : TypeRef)

/-- Fields that share a type; without names, an embedded field. -/
structure FieldGroup where
  names : List Ident
  type : TypeRef
  tag : Option StringLit

inductive InterfaceElem
  | method (name : Ident) (signature : Signature)
  | embedded (name : NamedType)

structure Signature where
  args : ParamList
  results : Option ParamList

/-- A list of parameters in parentheses, or a result type that stands alone. -/
structure ParamList where
  start : Position
  params : List Param
  stop : Position

structure Param where
  name : Option Ident
  /-- The type is written further right, as that of `a` in `(a, b int)`. -/
  inferred : Bool
  variadic : Bool
  type : TypeRef

end

namespace ParamList

/-- Whether some parameter has a name. -/
def isNamed (l : ParamList) : Bool := l.params.any (·.name.isSome)

/-- Whether the list is one plain type, which needs no parentheses as a result. -/
def isBare (l : ParamList) : Bool :=
  match l.params with
  | [p] => p.name.isNone && !p.variadic
  | _ => false

end ParamList

namespace Signature

def start (s : Signature) : Position := s.args.start

def stop (s : Signature) : Position := (s.results.getD s.args).stop

end Signature

namespace TypeRef

/-- The identifier that is the whole type. -/
def bareIdent? : TypeRef → Option Ident
  | named ⟨none, name⟩ => some name
  | _ => none

def isRecvChan : TypeRef → Bool
  | chan _ .recv _ => true
  | _ => false

def start : TypeRef → Position
  | named name => name.start
  | array start .. | slice start _ | ellipsisArray start _ | struct start .. | pointer start _
  | func start _ | interface start .. | map start .. | chan start .. => start

def stop : TypeRef → Position
  | named name => name.stop
  | array _ _ elem | slice _ elem | ellipsisArray _ elem | pointer _ elem | chan _ _ elem => elem.stop
  | struct _ _ stop | interface _ _ stop => stop
  | func _ signature => signature.stop
  | map _ _ value => value.stop

end TypeRef
end GoSyntax
