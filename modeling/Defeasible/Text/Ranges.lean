/-! Sets of characters given by ascending ranges of code points. -/

namespace Defeasible.Text

abbrev Ranges := List (Nat × Nat)

def Ranges.has : Ranges → Nat → Bool
  | [], _ => false
  | (lo, hi) :: rest, n => if n < lo then false else n ≤ hi || Ranges.has rest n

end Defeasible.Text
