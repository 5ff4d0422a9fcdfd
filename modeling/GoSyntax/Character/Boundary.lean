/-! Sets of code points given by the places where membership changes. -/
namespace GoSyntax

/-- Rising code points; a set begins at the first, ends before the second, and so on. -/
abbrev Boundaries := List Nat

namespace Boundaries

/-- Membership behind a number of changes, of which the last one led `inside` or out. -/
def flip (inside : Bool) : Boundaries → Nat → Bool
  | [], _ => inside
  | b :: bs, n => if n < b then inside else flip (!inside) bs n

def holds (bs : Boundaries) (n : Nat) : Bool := flip false bs n

end Boundaries
end GoSyntax
