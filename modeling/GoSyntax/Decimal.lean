/-! Numbers in decimal, halved again and again so that very long ones are quick to write. -/
namespace GoSyntax
namespace Decimal

/-- The last `2 ^ k` digits of a number, zeros in front included. -/
def lastDigits : (k : Nat) → Nat → List Char
  | 0, n => [Nat.digitChar (n % 10)]
  | k + 1, n =>
    let half := Nat.pow 10 (Nat.pow 2 k)
    lastDigits k (n / half) ++ lastDigits k (n % half)

/-- Some `k` for which `n` has no more than `2 ^ k` digits, since eight is less than ten. -/
def halvings (n : Nat) : Nat := Nat.log2 (Nat.log2 n / 3 + 1) + 1

def digits (n : Nat) : List Char :=
  match (lastDigits (halvings n) n).dropWhile (· == '0') with
  | [] => ['0']
  | cs => cs

def render (n : Nat) : String := String.ofList (digits n)

end Decimal
end GoSyntax
