import GoSyntax.Tree.Node
import GoSyntax.Tree.Print

/-! What walks over trees collect. -/
namespace GoSyntax

/-- The name of a type's form. -/
def TypeRef.formName : TypeRef → String
  | .named _ => "Named" | .array .. => "Array" | .slice .. => "Slice"
  | .ellipsisArray .. => "EllipsisArray" | .struct .. => "Struct" | .pointer .. => "Pointer"
  | .func .. => "FuncType" | .interface .. => "Interface" | .map .. => "Map" | .chan .. => "Chan"

/-- The name of an expression's form. -/
def Expr.formName : Expr → String
  | .ident _ => "IdentExpr" | .literal _ => "BasicLit" | .selector .. => "Selector"
  | .paren .. => "Paren" | .unary .. => "Unary" | .binary .. => "Binary" | .call .. => "Call"

/-- What is told of a node when it is visited. -/
inductive Detail
  | counts (imports decls : Nat)
  | size (n : Nat)
  | text (s : Text)
  | form (name : String)
  deriving DecidableEq, Repr

namespace Node

/-- The name of a node's sort. -/
def sortName : Node → String
  | file _ => "file" | importSpec _ => "import" | decl _ => "decl" | func _ => "func"
  | signature _ => "signature" | param _ => "param" | type _ => "type" | expr _ => "expr"
  | block _ => "block" | ident _ => "ident"

def detail : Node → Detail
  | file f => .counts f.imports.length f.decls.length
  | importSpec i => .text i.path.value
  | decl d => .text d.print
  | func f => .text f.name.name
  | signature s => .text s.print
  | param p => .text p.print
  | type t => .form t.formName
  | expr e => .form e.formName
  | block b => .size b.tokens.length
  | ident i => .text i.name

/-- The sorts and details of the nodes at and below `n`; nothing below a node of a pruned sort. -/
def trace (pruned : List String) (n : Node) : List (String × Detail) :=
  (n.walk fun parent _ => !pruned.contains parent.sortName).map fun m => (m.sortName, m.detail)

def isParam : Node → Bool
  | param _ => true
  | _ => false

def ident? : Node → Option Ident
  | ident i => some i
  | _ => none

def block? : Node → Option Block
  | block b => some b
  | _ => none

def param? : Node → Option Param
  | param p => some p
  | _ => none

/-- All identifiers. -/
def idents (n : Node) : List Ident := n.everything.filterMap ident?

/-- All function bodies. -/
def blocks (n : Node) : List Block := n.everything.filterMap block?

/-- The parameters that are not inside the type of another one. -/
def outerParams (n : Node) : List Param :=
  (n.walk fun parent _ => !parent.isParam).filterMap param?

/-- Whether the way from `parent` leads to text of its own: the type of a parameter may be written
with a later one. -/
def isWritten (parent child : Node) : Bool :=
  match parent, child with
  | param p, type _ => !p.inferred
  | _, _ => true

/-- The identifiers as they are written, those of inferred types left out. -/
def writtenIdents (n : Node) : List Ident := (n.walk isWritten).filterMap ident?

end Node

/-- Counts of what is in a file. -/
structure Statistics where
  funcs : Nat
  methods : Nat
  bodies : Nat
  params : Nat
  inferredParams : Nat
  types : Nat
  idents : Nat
  deriving DecidableEq, Repr

namespace Statistics

def ofFile (f : File) : Statistics :=
  let nodes := (Node.file f).everything
  { funcs := nodes.countP fun | .func _ => true | _ => false
    methods := nodes.countP fun | .func f => f.isMethod | _ => false
    bodies := nodes.countP fun | .block _ => true | _ => false
    params := nodes.countP fun | .param _ => true | _ => false
    inferredParams := nodes.countP fun | .param p => p.inferred | _ => false
    types := nodes.countP fun | .type _ => true | _ => false
    idents := nodes.countP fun | .ident _ => true | _ => false }

end Statistics
end GoSyntax
