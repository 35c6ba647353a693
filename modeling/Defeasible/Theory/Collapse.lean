import Defeasible.Theory.Probability
import Defeasible.Theory.Redundancy
import Defeasible.Theory.Resolution
import Defeasible.Theory.UnitPropagation

/-! Smaller theories with fewer levels: the two most certain levels are merged, and the merged level is
simplified, until the theory is small enough. -/

namespace Defeasible.Theory

def mergedLevel (t : Theory) (clauses : ClauseSet) : Query ClauseSet := do
  let t := (t.withLevels [⟨.certain, clauses⟩]).simplifyByUnits.simplifyByResolution
  let t ← (← t.withoutImplied).simplifyBySat
  return t.strata.headD ∅

/-- The necessity of two levels taken as one: they are violated with the average of their probabilities,
weighted by the number of models that each of them excludes. -/
def mergedNecessity (t : Theory) (count : Counter) (second top : ClauseSet)
    (secondWeight topWeight : Necessity) : Query Necessity := do
  let counts ← (ofStrata [second, top]).cutCounts count
  let both := counts.getD 0 0
  let upper := counts.getD 1 0
  let atoms := (UInt64.ofNat t.atoms.size).toFloat
  let secondCount := (upper - both).exp2
  let topCount := (atoms - upper).exp2
  let violated := (secondCount * (1.0 - secondWeight.value) + topCount * (1.0 - topWeight.value)) /
    (secondCount + topCount)
  Query.ofExcept .necessity (Necessity.ofFloat (1.0 - violated))

/-- The necessities that the levels get after the two highest are merged, if there are enough. Without a
counter the merged level has the lower necessity of the two. -/
def mergedWeights (t : Theory) (counter : Option Counter) (second top : ClauseSet)
    (weights : List Necessity) : Query (Option (List Necessity)) :=
  match counter with
  | none => return some weights.dropLast
  | some count =>
    match weights.getLast?, weights.dropLast.getLast? with
    | some topWeight, some secondWeight => do
      let n ← t.mergedNecessity count second top secondWeight topWeight
      return some (weights.dropLast.dropLast ++ [n])
    | _, _ => return none

def collapseUpTo (maxLiterals : Nat) (counter : Option Counter) :
    (fuel : Nat) → Theory → (weights : List Necessity) → Query Theory
  | 0, t, _ => return t
  | fuel + 1, t, weights => do
    if t.literalCount ≤ maxLiterals then return t
    match t.strata.reverse with
    | top :: second :: lower =>
      let merged ← t.mergedLevel (top ∪ second)
      match ← t.mergedWeights counter second top weights with
      | none => return t
      | some weights =>
        let strata := lower.reverse ++ [merged]
        let levels := (weights.zip strata).map fun (n, clauses) => ⟨n, clauses⟩
        collapseUpTo maxLiterals counter fuel (t.withLevels levels) weights
    | _ => return t

def collapse (t : Theory) (maxLiterals : Nat) : Query Theory :=
  collapseUpTo maxLiterals none t.levels.length t t.weights

def collapseCounted (t : Theory) (maxLiterals : Nat) (count : Counter) : Query Theory :=
  collapseUpTo maxLiterals (some count) t.levels.length t t.weights

end Defeasible.Theory
