import GoSyntax.Lexer
import GoSyntax.Grammar.Event

/-! The tokens that the grammar sees: comments and plain line ends are dropped, semicolons that were
left out arrive as semicolons. -/
namespace GoSyntax

/-- What one request for a token gives. -/
structure Arrival where
  /-- All tokens that were read for it, dropped ones included. -/
  passed : List Token
  outcome : Except Error Token
  /-- Whether nothing was left to read behind it. -/
  drained : Bool

/-- The token as the grammar sees it. -/
def Token.visible? (t : Token) : Option Token :=
  match t.kind with
  | .comment _ | .delimiter .endOfLine => none
  | .delimiter .elidedSemicolon => some (t.withKind (.delimiter .semicolon))
  | _ => some t

namespace Arrival

/-- Groups steps into arrivals, `passed` being the dropped tokens so far, the last one first. -/
def group (passed : List Token) : List Step → List Arrival
  | [] => []
  | ⟨.error e, after⟩ :: steps => ⟨passed.reverse, .error e, after.exhausted⟩ :: group [] steps
  | ⟨.ok t, after⟩ :: steps =>
    match t.visible? with
    | some v => ⟨(t :: passed).reverse, .ok v, after.exhausted⟩ :: group [] steps
    | none => group (t :: passed) steps

/-- Everything that arrives from `x`, up to and with the end of the source. -/
def ofLexer (x : Lexer) : List Arrival := group [] x.drain

def events (a : Arrival) : List Event := a.passed.map .ofToken

end Arrival
end GoSyntax
