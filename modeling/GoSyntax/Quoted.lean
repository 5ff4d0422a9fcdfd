import GoSyntax.Location
import GoSyntax.Character.Legible

/-! Characters and texts shown between quotes, on one line and in legible characters only. -/
namespace GoSyntax
namespace Quoted

/-- The escape of a character by its code point. -/
def byCode (c : Char) : Text :=
  "\\u\x7b".toList ++ Nat.toDigits 16 c.toNat ++ ['\x7d']

/-- How `c` is shown between two of `quote`. Only that quote is escaped. -/
def shown (quote c : Char) : Text :=
  if c = '\x00' then ['\\', '0']
  else if c = '\t' then ['\\', 't']
  else if c = '\r' then ['\\', 'r']
  else if c = '\n' then ['\\', 'n']
  else if c = quote ∨ c = '\\' then ['\\', c]
  else if isLegible c then [c]
  else byCode c

def char (c : Char) : Text := '\'' :: shown '\'' c ++ ['\'']

def text (s : Text) : Text := '"' :: s.flatMap (shown '"') ++ ['"']

end Quoted
end GoSyntax
