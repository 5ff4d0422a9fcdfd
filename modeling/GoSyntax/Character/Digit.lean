/-! Digits of the number bases, ASCII throughout. -/
namespace GoSyntax

/-- The value of `c` as a digit of some base up to sixteen, letters in either case. -/
def digitValue? (c : Char) : Option Nat :=
  if '0' ≤ c ∧ c ≤ '9' then some (c.toNat - '0'.toNat)
  else if 'a' ≤ c ∧ c ≤ 'f' then some (c.toNat - 'a'.toNat + 10)
  else if 'A' ≤ c ∧ c ≤ 'F' then some (c.toNat - 'A'.toNat + 10)
  else none

/-- The value of `c` as a digit in base `base`. -/
def digitIn? (base : Nat) (c : Char) : Option Nat := (digitValue? c).filter (· < base)

def isDigitIn (base : Nat) (c : Char) : Bool := (digitIn? base c).isSome

/-- The number that the digits `s` spell in base `base`, if all of them are digits of it. -/
def numberIn? (base : Nat) (s : List Char) : Option Nat :=
  s.foldlM (fun n c => (digitIn? base c).map (n * base + ·)) 0

end GoSyntax
