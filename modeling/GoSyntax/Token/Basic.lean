import GoSyntax.Token.Kind
import GoSyntax.Quoted

/-! Tokens: where they stand, what they are, how they are written and what they are worth. -/
namespace GoSyntax

/-- The exact value of a literal; for an identifier, its name. -/
inductive Value
  | int (n : Nat)
  | float (q : Rat)
  /-- The imaginary part. -/
  | imaginary (q : Rat)
  | rune (c : Char)
  | text (s : Text)
  deriving DecidableEq, Repr

structure Token where
  /-- Where the token's own text begins. -/
  pos : Position
  kind : Kind
  /-- The bytes of the token's own text. -/
  span : Span
  /-- What was skipped in front of the token. -/
  leading : Text
  /-- The token's own text. -/
  text : Text
  value : Option Value
  deriving DecidableEq, Repr

namespace Token

/-- All characters that went into the token. -/
def raw (t : Token) : Text := t.leading ++ t.text

/-- The position right after the token, all its characters counted as columns of one line. -/
def stop (t : Token) : Position := t.pos.moved t.text.length

def withKind (t : Token) (kind : Kind) : Token := { t with kind }

/-- A token with no text of its own that stands at `m`. -/
def emptyAt (m : Mark) (kind : Kind) : Token :=
  { pos := m.pos, kind, span := .emptyAt m.offset, leading := [], text := [], value := none }

/-- One line that shows the token. -/
def render (t : Token) : String :=
  s!"{t.pos.render} {t.kind.spelling} {String.ofList (Quoted.text t.text)}"

end Token
end GoSyntax
