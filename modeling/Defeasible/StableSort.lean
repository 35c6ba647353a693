/-! Sorting that leaves elements which are equal in the order in the order they came in. -/

universe u

namespace Defeasible

def insertBefore {α : Type u} (le : α → α → Bool) (x : α) : List α → List α
  | [] => [x]
  | y :: ys => if le x y then x :: y :: ys else y :: insertBefore le x ys

def stableSort {α : Type u} (le : α → α → Bool) (xs : List α) : List α :=
  xs.foldr (insertBefore le) []

end Defeasible
