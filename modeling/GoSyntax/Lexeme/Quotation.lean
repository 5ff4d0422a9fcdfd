import GoSyntax.Character.Digit
import GoSyntax.Lexeme.Reading
import GoSyntax.Slice

/-! Rune, string and raw string literals. -/
namespace GoSyntax
namespace Lexeme
namespace Quotation

/-- What a one-letter escape stands for. -/
def simpleEscape? : Char → Option Char
  | 'a' => some '\x07'
  | 'b' => some '\x08'
  | 'f' => some '\x0c'
  | 'n' => some '\n'
  | 'r' => some '\r'
  | 't' => some '\t'
  | 'v' => some '\x0b'
  | '\\' => some '\\'
  | '\'' => some '\''
  | '"' => some '"'
  | _ => none

/-- How many hexadecimal digits follow an escape letter. -/
def hexLength? : Char → Option Nat
  | 'x' => some 2
  | 'u' => some 4
  | 'U' => some 8
  | _ => none

/-- The character of a code point, if it has one. -/
def scalar? (n : Nat) : Option Char := if n.isValidChar then some (Char.ofNat n) else none

/-- The digits of base `base` at the front of `cs`, `n` at most. -/
def leadingDigits (base n : Nat) (cs : Text) : Text := (cs.take n).takeWhile (isDigitIn base)

/-- Reads the `n` hexadecimal digits of an escape. -/
def hexEscape (n : Nat) (cs : Text) : Reading Char :=
  let digits := leadingDigits 16 n cs
  if digits.length = n then
    match (numberIn? 16 digits).bind scalar? with
    | some c => .done n c
    | none => .fail n (.here .invalidCodePoint)
  else if cs.length = digits.length then .fail digits.length (.atStart (.unterminated .escape))
  else .fail digits.length (.here (.invalidEscape .hexDigit))

/-- Reads an escape of three octal digits, the first of them at the front of `cs`. -/
def octalEscape (cs : Text) : Reading Char :=
  let digits := leadingDigits 8 3 cs
  if digits.length = 3 then
    match numberIn? 8 digits with
    | some n =>
      if n ≤ 255 then .done 3 (Char.ofNat n) else .fail 3 (.here (.invalidEscape .octalRange))
    | none => .fail 3 (.here .invalidCodePoint)
  else .fail digits.length (.here (.invalidEscape .octalLength))

/-- Reads an escape, the backslash left out. -/
def escape : Text → Reading Char
  | [] => .fail 0 (.atStart (.unterminated .escape))
  | c :: cs =>
    match simpleEscape? c, hexLength? c with
    | some v, _ => .done 1 v
    | none, some n => (hexEscape n cs).shift 1
    | none, none =>
      if isDigitIn 8 c then octalEscape (c :: cs)
      else .fail 1 (.here (.invalidEscape .unknown))

/-- Reads one character of a literal, `c`, which an escape makes longer; the size counts what was
read of `cs` behind it. -/
def item (c : Char) (cs : Text) : Reading Char :=
  if c = '\\' then escape cs else .done 0 c

/-- Reads a rune literal behind its opening quote. -/
def rune : Text → Reading Meaning
  | [] => .fail 1 (.atStart (.unterminated .rune))
  | c :: cs =>
    if c = '\n' then .fail 1 (.here .newlineInRune)
    else if c = '\'' then .fail 1 (.here .invalidRune)
    else
      let r := item c cs
      let size := 2 + r.size
      match r.result with
      | .error flaw => .fail size flaw
      | .ok v =>
        match (cs.drop r.size).head? with
        | none => .fail size (.atStart (.unterminated .rune))
        | some d =>
          if d = '\'' then .done (size + 1) (.token (.literal .rune) (some (.rune v)))
          else if d = '\n' then .fail size (.here .newlineInRune)
          else .fail size (.here .invalidRune)

/-- Reads the characters of a string literal up to and with its closing quote. -/
def stringItems : Text → Reading Text
  | [] => .fail 0 (.atStart (.unterminated .string))
  | c :: cs =>
    if c = '\n' then .fail 0 (.here .newlineInString)
    else if c = '"' then .done 1 []
    else
      let r := item c cs
      match r.result with
      | .error flaw => .fail (1 + r.size) flaw
      | .ok v => ((stringItems (cs.drop r.size)).map (v :: ·)).shift (1 + r.size)
termination_by cs => cs.length
decreasing_by simp only [List.length_drop, List.length_cons]; omega

/-- Reads a string literal behind its opening quote. -/
def string (cs : Text) : Reading Meaning :=
  ((stringItems cs).map fun s => .token (.literal .interpretedString) (some (.text s))).shift 1

/-- The quote of raw strings. -/
def rawQuote : Char := '\x60'

/-- Reads a raw string literal behind its opening quote. -/
def rawString (cs : Text) : Reading Meaning :=
  let length := (cs.takeWhile (· != rawQuote)).length
  if length < cs.length then
    let literal : Text := rawQuote :: cs.take (length + 1)
    match Text.between? 1 (literal.byteLength - 1) literal with
    | some body => .done (length + 2) (.token (.literal .rawString) (some (.text body)))
    | none => .fail (length + 2) ⟨.start, .crash .outOfRange⟩
  else .fail (length + 1) (.atStart (.unterminated .rawString))

end Quotation
end Lexeme
end GoSyntax
