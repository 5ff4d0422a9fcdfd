import GoSyntax.Lexeme.Reading

/-! Operators and delimiters. They are read one character after the other: after each, some characters
are tried in turn, and the first of them that comes next is taken. -/
namespace GoSyntax
namespace Lexeme

/-- How a symbol goes on. -/
inductive Ending
  /-- It is complete. -/
  | stop (m : Meaning)
  /-- If `c` comes next it is taken, and `more` says how to go on; otherwise `other` does. -/
  | eat (c : Char) (more other : Ending)

namespace Ending

def operator (o : Operator) : Ending := stop (.token (.operator o) none)

def delimiter (d : Delimiter) : Ending := stop (.token (.delimiter d) none)

/-- Reads what the ending takes. -/
def read : Ending → Text → Reading Meaning
  | stop m, _ => .done 0 m
  | eat _ _ other, [] => other.read []
  | eat c more other, d :: cs => if d = c then (more.read cs).shift 1 else other.read (d :: cs)

/-- How a symbol goes on behind its first character, if one opens with it. Two dots are no symbol,
yet both have been taken by the time this is clear. -/
def ofFirst? : Char → Option Ending
  | '+' => some (.eat '+' (operator .increment) (.eat '=' (operator .addAssign) (operator .add)))
  | '-' => some (.eat '-' (operator .decrement) (.eat '=' (operator .subAssign) (operator .sub)))
  | '*' => some (.eat '=' (operator .mulAssign) (operator .mul))
  | '/' => some (.eat '=' (operator .divAssign) (operator .div))
  | '%' => some (.eat '=' (operator .modAssign) (operator .mod))
  | '&' =>
    some (.eat '^' (.eat '=' (operator .bitClearAssign) (operator .bitClear))
      (.eat '=' (operator .bitAndAssign) (.eat '&' (operator .logicAnd) (operator .bitAnd))))
  | '|' => some (.eat '=' (operator .bitOrAssign) (.eat '|' (operator .logicOr) (operator .bitOr)))
  | '^' => some (.eat '=' (operator .bitXorAssign) (operator .bitXor))
  | '<' =>
    some (.eat '-' (operator .chan) (.eat '=' (operator .lte)
      (.eat '<' (.eat '=' (operator .shlAssign) (operator .shl)) (operator .lt))))
  | '>' =>
    some (.eat '=' (operator .gte)
      (.eat '>' (.eat '=' (operator .shrAssign) (operator .shr)) (operator .gt)))
  | '=' => some (.eat '=' (operator .eq) (operator .assign))
  | '!' => some (.eat '=' (operator .neq) (operator .logicNot))
  | ':' => some (.eat '=' (operator .define) (delimiter .colon))
  | '~' => some (operator .tilde)
  | '.' => some (.eat '.' (.eat '.' (operator .ellipsis) (stop .twoDots)) (delimiter .dot))
  | '(' => some (delimiter .lparen)
  | ')' => some (delimiter .rparen)
  | '[' => some (delimiter .lbracket)
  | ']' => some (delimiter .rbracket)
  | '\x7b' => some (delimiter .lbrace)
  | '\x7d' => some (delimiter .rbrace)
  | ',' => some (delimiter .comma)
  | ';' => some (delimiter .semicolon)
  | _ => none

end Ending

/-- Reads a symbol that opens with `c`. -/
def symbol (c : Char) (cs : Text) : Reading Meaning :=
  match Ending.ofFirst? c with
  | some e => (e.read cs).shift 1
  | none => .fail 1 (.atStart (.invalidCharacter c))

end Lexeme
end GoSyntax
