import GoSyntax.Character.Digit
import GoSyntax.Lexeme.Reading
import GoSyntax.Slice

/-! Numeric literals: integers of four bases, decimal fractions, and imaginary forms of both. Values
are exact. -/
namespace GoSyntax
namespace Lexeme
namespace Number

/-- The largest decimal exponent, either sign. -/
def exponentLimit : Nat := 100000

/-- Signed words go from minus this number up to just below it. -/
def wordLimit : Nat := 9223372036854775808

/-- The number is a signed word. -/
def isWord (n : Int) : Bool := -wordLimit ≤ n && n < wordLimit

/-- A digit of base `base`, or a separator. -/
def isDigitOrSeparator (base : Nat) (c : Char) : Bool := isDigitIn base c || c == '_'

/-- The digits and separators of base `base` at the front of a text. -/
def digitRun (base : Nat) (cs : Text) : Text := cs.takeWhile (isDigitOrSeparator base)

def hasDigit (s : Text) : Bool := s.any (· != '_')

def withoutSeparators (s : Text) : Text := s.filter (· != '_')

/-- The forms that open with a zero and a letter. -/
def baseOf? (c : Char) : Option (LiteralForm × Nat) :=
  if c = 'x' ∨ c = 'X' then some (.hexInteger, 16)
  else if c = 'b' ∨ c = 'B' then some (.binaryInteger, 2)
  else if c = 'o' ∨ c = 'O' then some (.octalInteger, 8)
  else none

/-- The parts of a literal without base letter. Each part is as written, the exponent with its letter
left out. -/
structure Decimal where
  whole : Text
  /-- What follows the point, if there is one. -/
  fraction : Option Text
  /-- Sign and digits behind the exponent letter, if there is one. -/
  exponent : Option (Option Char × Text)
  deriving Repr

namespace Decimal

def isFloat (d : Decimal) : Bool := d.fraction.isSome || d.exponent.isSome

def size (d : Decimal) : Nat :=
  d.whole.length + (d.fraction.map fun f => f.length + 1).getD 0 +
    (d.exponent.map fun e => e.1.toList.length + e.2.length + 1).getD 0

/-- What a point at the front opens, and what is left behind it. -/
def splitFraction : Text → Option Text × Text
  | '.' :: more => (some (digitRun 10 more), more.drop (digitRun 10 more).length)
  | rest => (none, rest)

/-- What an exponent letter at the front opens: a sign, and digits. -/
def exponentOf : Text → Option (Option Char × Text)
  | [] => none
  | c :: more =>
    if c = 'e' ∨ c = 'E' then
      match more with
      | '+' :: digits => some (some '+', digitRun 10 digits)
      | '-' :: digits => some (some '-', digitRun 10 digits)
      | _ => some (none, digitRun 10 more)
    else none

/-- Splits off whole digits, a point with more digits, and an exponent. -/
def ofText (cs : Text) : Decimal :=
  let whole := digitRun 10 cs
  let (fraction, rest) := splitFraction (cs.drop whole.length)
  ⟨whole, fraction, exponentOf rest⟩

end Decimal

/-- The byte at an index that the list reaches. -/
def byteAt (bytes : List UInt8) (i : Nat) : Except Cause UInt8 :=
  match bytes[i]? with
  | some b => .ok b
  | none => .error (.crash .outOfRange)

def isDigitByte (base : Nat) (b : UInt8) : Bool := isDigitIn base (Char.ofNat b.toNat)

/-- Whether a digit, or the base letter of a literal, stands before the byte at `i`. -/
def fitsBehind (base : Nat) (bytes : List UInt8) (i : Nat) : Except Cause Bool := do
  if i = 0 then return false
  else if isDigitByte base (← byteAt bytes (i - 1)) then return true
  else if i = 2 then return (baseOf? (Char.ofNat (← byteAt bytes 1).toNat)).isSome
  else return false

/-- Whether the byte at `i`, if it is a separator, stands between two digits, or between the base
letter and a digit. -/
def separatorFits (base : Nat) (bytes : List UInt8) (entry : UInt8 × Nat) : Except Cause Bool := do
  if entry.1 ≠ '_'.toUInt8 then return true
  else return (← fitsBehind base bytes entry.2) && bytes[entry.2 + 1]?.any (isDigitByte base)

/-- Whether all separators of a literal stand where they may. Digits are decimal at least. -/
def separatorsFit (base : Nat) (literal : Text) : Except Cause Bool :=
  let bytes := literal.flatMap String.utf8EncodeChar
  bytes.zipIdx.allM (separatorFits (max base 10) bytes)

/-- The value of an integer literal's digits. -/
def integer? (base : Nat) (digits : Text) : Except Cause Nat :=
  let digits := if digits.isEmpty then ['0'] else digits
  match numberIn? base digits with
  | some n => .ok n
  | none => .error (.defect (.number digits base))

/-- A signed word as it is written: digits, perhaps behind a sign. -/
def word? (s : Text) : Option Int :=
  let (isNegative, digits) := match s with
    | '+' :: digits => (false, digits)
    | '-' :: digits => (true, digits)
    | _ => (false, s)
  if digits.isEmpty then none
  else
    ((numberIn? 10 digits).map fun n : Nat => if isNegative then -(n : Int) else n).filter isWord

/-- The magnitude of a signed word as a signed word. The least of them has none. -/
def magnitude (e : Int) : Except Cause Nat :=
  if isWord e.natAbs then .ok e.natAbs else .error (.crash .overflow)

/-- The exponent that `s` spells, if it is small; nothing spells zero. -/
def smallExponent (s : Text) : Except Cause Int :=
  if s.isEmpty then .ok 0
  else
    match word? s with
    | some e => do
      if (← magnitude e) ≤ exponentLimit then return e
      else .error (.lexical (.invalidNumber .exponentTooLarge))
    | none => .error (.lexical (.invalidNumber .exponentTooLarge))

def isExponentLetter (c : Char) : Bool := c == 'e' || c == 'E'

/-- The digits before the exponent letter and the exponent behind it, which is empty without one. -/
def splitExponent (digits : Text) : Except Cause (Text × Text) :=
  let mantissa := digits.takeWhile fun c => !isExponentLetter c
  if mantissa.length = digits.length then .ok (digits, [])
  else
    match Text.before? (Text.byteLength mantissa) digits,
      Text.behind? (Text.byteLength mantissa + 1) digits with
    | some mantissa, some exponent => .ok (mantissa, exponent)
    | _, _ => .error (.crash .outOfRange)

/-- The exact value of `mantissa`, `places` digits of it behind the point, times a power of ten. -/
def scaled (mantissa places : Nat) (exponent : Int) : Rat :=
  let scale := exponent - places
  if 0 ≤ scale then Rat.ofInt (mantissa * Nat.pow 10 scale.toNat : Nat)
  else mkRat mantissa (Nat.pow 10 (-scale).toNat)

/-- The exact value of a decimal fraction, separators left out. -/
def fraction? (digits : Text) : Except Cause Rat := do
  let (mantissa, exponent) ← splitExponent digits
  let whole := mantissa.takeWhile (· != '.')
  let places := mantissa.drop (whole.length + 1)
  let e ← smallExponent exponent
  let all := if (whole ++ places).isEmpty then ['0'] else whole ++ places
  match numberIn? 10 all with
  | some m => return scaled m places.length e
  | none => .error (.defect (.decimal digits))

/-- What `literal` means. Its form and base are known, and whether a base letter and an `i` belong
to it. An octal form without base letter is decimal with an `i`. -/
def meaning (form : LiteralForm) (base : Nat) (isBased isImaginary : Bool) (literal : Text) :
    Except Cause Meaning := do
  if !(← separatorsFit base literal) then .error (.lexical (.invalidNumber .misplacedSeparator))
  else
    let body := if literal.getLast? = some 'i' then literal.dropLast else literal
    let digits := withoutSeparators ((Text.behind? (if isBased then 2 else 0) body).getD [])
    if form = .octalInteger ∧ !isBased ∧ !isImaginary ∧ digits.any (!isDigitIn 8 ·) then
      .error (.lexical (.invalidNumber (.invalidDigit 8)))
    else if isImaginary then
      let value ← if form = .float then fraction? digits
        else (integer? (if isBased then base else 10) digits).map fun n : Nat => .ofInt n
      return .token (.literal .imaginary) (some (.imaginary value))
    else if form = .float then
      return .token (.literal form) (some (.float (← fraction? digits)))
    else return .token (.literal form) (some (.int (← integer? base digits)))

/-- The reading of a literal of `size` characters. -/
def settle (size : Nat) (result : Except Cause Meaning) : Reading Meaning :=
  ⟨size, result.mapError (Flaw.mk .start)⟩

def flawed (size : Nat) (flaw : NumberFlaw) : Reading Meaning :=
  .fail size (.atStart (.invalidNumber flaw))

/-- One character more if an `i` follows. -/
def suffix (rest : Text) : Nat := if rest.head? = some 'i' then 1 else 0

/-- Reads a literal that opens with a zero and the letter of base `base`; `cs` is what follows
them. Decimal digits are read in smaller bases too, so that a stray one is found here. -/
def readBased (form : LiteralForm) (base : Nat) (letter : Char) (cs : Text) : Reading Meaning :=
  let digits := digitRun (max base 10) cs
  let size := 2 + digits.length
  if !hasDigit digits then flawed size (.noDigits base)
  else
    match Text.behind? 2 ('0' :: letter :: digits) with
    | none => settle size (.error (.crash .outOfRange))
    | some digits =>
      if !digits.all (isDigitOrSeparator base) then flawed size (.invalidDigit base)
      else
        let i := suffix (cs.drop digits.length)
        settle (size + i)
          (meaning form base true (i != 0) ('0' :: letter :: cs.take (digits.length + i)))

/-- Reads a literal without base letter. -/
def readDecimal (cs : Text) : Reading Meaning :=
  let d := Decimal.ofText cs
  let size := d.size
  if d.exponent.any fun e => !hasDigit e.2 then flawed size .noExponent
  else
    let i := suffix (cs.drop size)
    let (form, base) : LiteralForm × Nat :=
      if d.isFloat then (.float, 10)
      else if cs.head? = some '0' then (.octalInteger, 8)
      else (.decimalInteger, 10)
    settle (size + i) (meaning form base false (i != 0) (cs.take (size + i)))

/-- Reads the numeric literal that opens `cs`. -/
def read (cs : Text) : Reading Meaning :=
  match cs with
  | '0' :: c :: rest =>
    match baseOf? c with
    | some (form, base) => readBased form base c rest
    | none => readDecimal cs
  | _ => readDecimal cs

end Number
end Lexeme
end GoSyntax
