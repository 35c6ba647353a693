import Defeasible.Session
import Defeasible.Theory.Basic

/-! Questions to a theory. The preferred level of some evidence is the lowest necessity whose cut is
consistent with the evidence; the levels below it are drowned. The theory implies what holds in all
models of the evidence and of the cut at its preferred level. -/

namespace Defeasible.Theory

def requireGround (t : Theory) : Query Unit :=
  if t.isGround then pure () else throw (.theory .nonGround)

def solveProblem (t : Theory) (problem : ClauseSet) : Query (Option Witness) :=
  if t.cached then Query.remembered problem (Query.solveFresh t.settings problem)
  else Query.solveFresh t.settings problem

def units (ls : List Literal) : ClauseSet := .ofList (ls.map Clause.unit)

def solveAt (t : Theory) (n : Necessity) (evidence : Evidence) : Query (Option Witness) := do
  t.requireGround
  t.solveProblem (t.cut n ∪ units evidence.toList)

/-- Looks for the lowest of the weights from `low` on and below `high` whose cut is consistent with the
evidence, by halving. The best answer so far is above these. -/
def searchLevel (t : Theory) (evidence : Evidence) (weights : Array Necessity) :
    (fuel : Nat) → (low high : Nat) → (best : Option (Witness × Necessity)) →
    Query (Option (Witness × Necessity))
  | 0, _, _, best => pure best
  | fuel + 1, low, high, best =>
    if low < high then do
      let middle := (low + high - 1) / 2
      let n := weights.getD middle .certain
      match ← t.solveAt n evidence with
      | some witness => searchLevel t evidence weights fuel low middle (some (witness, n))
      | none => searchLevel t evidence weights fuel (middle + 1) high best
    else pure best

/-- A model of the evidence at its preferred level, and this level. Without levels the hard rules are
asked alone. -/
def solve (t : Theory) (evidence : Evidence) : Query (Option (Witness × Necessity)) := do
  let weights := t.weights.toArray
  if weights.isEmpty then
    return (← t.solveAt .certain evidence).map fun witness => (witness, .certain)
  else
    t.searchLevel evidence weights weights.size 0 weights.size none

/-- Whether the consequent holds in all models of the evidence at its preferred level. What cannot fail
is always implied, and nothing else is implied by inconsistent evidence. -/
def implies (t : Theory) (evidence : Evidence) (consequent : Clause) : Query Bool := do
  if consequent.isTautology then return true
  t.requireGround
  match ← t.solve evidence with
  | none => return false
  | some (_, n) =>
    let problem := t.cut n ∪ units evidence.toList ∪ units consequent.negated
    return (← t.solveProblem problem).isNone

def impliesLiteral (t : Theory) (evidence : Evidence) (l : Literal) : Query Bool :=
  t.implies evidence (.unit l)

/-- The clauses of the levels with weights: a clause weighs more than all clauses of the levels below it
together, which weigh `total`. -/
def weighClauses : (total : Nat) → List Level → List (Clause × Nat)
  | _, [] => []
  | total, l :: levels =>
    l.clauses.toList.map (·, total + 1) ++ weighClauses (total + (total + 1) * l.clauses.size) levels

/-- A model of the evidence and the hard rules whose most certain falsified clause is as uncertain as can
be. -/
def mostPlausible (t : Theory) (evidence : Evidence) : Query (Option Witness) := do
  t.requireGround
  let hard := t.hardRules.toList ++ evidence.toList.map Clause.unit
  let solver ← Query.ofExcept .engine (Solver.new hard (weighClauses 0 t.levels) t.settings)
  let watch ← Query.nextWatch
  Query.ofExcept id (solver.optimize watch).1

end Defeasible.Theory
