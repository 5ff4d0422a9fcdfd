import GoSyntax.Lexeme.Reading

/-! Comments. -/
namespace GoSyntax
namespace Lexeme
namespace Comment

/-- Reads a line comment behind its two slashes. The line feed is not part of it. -/
def line (cs : Text) : Reading Meaning :=
  .done (2 + (cs.takeWhile (· != '\n')).length) (.token (.comment .line) none)

/-- The size of a block comment's inside with its end marker, if it has one. -/
def blockSize? : Text → Option Nat
  | [] => none
  | '*' :: '/' :: _ => some 2
  | _ :: cs => (blockSize? cs).map (· + 1)

/-- Reads a block comment behind its opening. -/
def block (cs : Text) : Reading Meaning :=
  match blockSize? cs with
  | some n => .done (2 + n) (.token (.comment .block) none)
  | none => .fail (2 + cs.length) (.atStart (.unterminated .comment))

end Comment
end Lexeme
end GoSyntax
