import GoSyntax.Tree.Leaf

/-! Expressions that can stand for an array length. -/
namespace GoSyntax

inductive Expr
  | ident (i : Ident)
  | literal (l : BasicLit)
  | selector (base : Expr) (field : Ident)
  | paren (start : Position) (inner : Expr) (stop : Position)
  | unary (start : Position) (op : Operator) (operand : Expr)
  | binary (op : Operator) (left right : Expr)
  | call (function : Expr) (args : List Expr) (stop : Position)
  deriving Repr

namespace Expr

def start : Expr → Position
  | ident i => i.pos
  | literal l => l.pos
  | selector base _ => base.start
  | paren start _ _ | unary start _ _ => start
  | binary _ left _ => left.start
  | call function _ _ => function.start

def stop : Expr → Position
  | ident i => i.stop
  | literal l => l.stop
  | selector _ field => field.stop
  | paren _ _ stop | call _ _ stop => stop
  | unary _ _ operand => operand.stop
  | binary _ _ right => right.stop

def isLiteral : Expr → Bool
  | literal _ => true
  | _ => false

def isUnary : Expr → Bool
  | unary .. => true
  | _ => false

end Expr
end GoSyntax
