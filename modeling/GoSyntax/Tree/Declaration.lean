import GoSyntax.Tree.Type

/-! Functions, imports and files. -/
namespace GoSyntax

/-- A function body: the tokens between its braces. -/
structure Block where
  start : Position
  tokens : List Token
  stop : Position

structure FuncDecl where
  start : Position
  receiver : Option ParamList
  name : Ident
  signature : Signature
  body : Option Block

def FuncDecl.isMethod (f : FuncDecl) : Bool := f.receiver.isSome

inductive Decl
  | func (f : FuncDecl)

namespace Decl

def start : Decl → Position
  | func f => f.start

def stop : Decl → Position
  | func f => (f.body.map (·.stop)).getD f.signature.stop

end Decl

/-- The name that an import goes by. -/
inductive ImportName
  | dot (pos : Position)
  | blank (pos : Position)
  | named (name : Ident)

structure Import where
  start : Position
  name : Option ImportName
  path : StringLit

structure File where
  start : Position
  package : Ident
  imports : List Import
  decls : List Decl

namespace File

def funcs (f : File) : List FuncDecl := f.decls.map fun | .func g => g

end File
end GoSyntax
