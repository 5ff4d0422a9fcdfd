import GoSyntax.Grammar.Parser
import GoSyntax.Tree.Expr

/-! Expressions by precedence climbing. Each rule takes what it needs from the rules one level
deeper. -/
namespace GoSyntax
namespace Parse
namespace Expr

/-- What can be asked for one level deeper. -/
inductive Goal
  /-- An expression whose binary operators bind at least as tightly as `least`. -/
  | binary (least : Nat)
  | unary

/-- An identifier, a literal or an expression in parentheses. -/
def operand (deeper : Goal → Parse Expr) : Parse Expr := do
  match (← peek).kind with
  | .identifier => .ident <$> identifier .identifier
  | .delimiter .lparen =>
    let opening ← advance
    let inner ← deeper (.binary 1)
    let closing ← require .exprParenEnd [.delimiter .rparen]
    return .paren opening.pos inner closing.stop
  | .literal form =>
    let t ← advance
    match t.value with
    | some value => return .literal ⟨t.pos, form, t.text, value⟩
    | none => failAt t.pos (.defect .literalValue)
  | _ => unexpected .expression

/-- One selector or call behind `e`, if there is one. -/
def postfixStep (deeper : Goal → Parse Expr) (e : Expr) : Parse (ForInStep Expr) := do
  if ← consumeIf (.delimiter .dot) then
    let field ← identifier .selector
    return .yield (.selector e field)
  else if ← consumeIf (.delimiter .lparen) then
    let args ← commaList (.delimiter .rparen) (deeper (.binary 1))
    let closing ← require .callEnd [.delimiter .rparen]
    return .yield (.call e args closing.stop)
  else return .done e

/-- An operand with its selectors and calls. -/
def primary (deeper : Goal → Parse Expr) : Parse Expr := nested do
  loop (postfixStep deeper) (← operand deeper)

def unaryRule (deeper : Goal → Parse Expr) : Parse Expr := do
  match (← peek).kind with
  | .operator op =>
    if op.isUnary then
      let t ← advance
      return .unary t.pos op (← deeper .unary)
    else primary deeper
  | _ => primary deeper

/-- The precedence of the binary operator in view, if it binds at least as tightly as `least`. -/
def operatorInView? (least : Nat) : Parse (Option (Operator × Nat)) := do
  match (← peek).kind with
  | .operator op => return (op.precedence?.filter (least ≤ ·)).map (op, ·)
  | _ => return none

/-- One binary operator with its right side behind `left`, if there is one. -/
def binaryStep (deeper : Goal → Parse Expr) (least : Nat) (left : Expr) :
    Parse (ForInStep Expr) := do
  match ← operatorInView? least with
  | some (op, precedence) =>
    let _ ← advance
    return .yield (.binary op left (← deeper (.binary (precedence + 1))))
  | none => return .done left

def binaryRule (deeper : Goal → Parse Expr) (least : Nat) : Parse Expr := do
  loop (binaryStep deeper least) (← unaryRule deeper)

/-- The rules where `room` more levels can be opened. -/
def rule : (room : Nat) → Goal → Parse Expr
  | 0, _ => tooDeep
  | room + 1, .binary least => nested (binaryRule (rule room) least)
  | room + 1, .unary => nested (unaryRule (rule room))

end Expr

/-- An expression. -/
def expr : Parse Expr := fun p => Expr.rule p.room (.binary 1) p

end Parse
end GoSyntax
