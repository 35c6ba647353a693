import Defeasible.Counting.Counter
import Defeasible.Theory.Query

/-! Probabilities from model counts. A valuation has the probability that goes with the first level it
falsifies. -/

namespace Defeasible.Theory

/-- The binary logarithm of a number, of which the 53 highest bits count. -/
def log2 (n : Nat) : Float :=
  if n = 0 then -1.0 / 0.0
  else
    let shift := n.log2 + 1 - 53
    (UInt64.ofNat (n >>> shift)).toFloat.log2 + (UInt64.ofNat shift).toFloat

def cutCounts (t : Theory) (count : Counter) : Query (List Float) :=
  t.weights.mapM fun n => do return log2 (← count (t.cut n).toList)

def summands : List Necessity → (counts : List Float) → List Float
  | n :: ns, a :: b :: counts => (1.0 - n.value) * (b.exp2 - a.exp2) :: summands ns (b :: counts)
  | _, _ => []

def probability (t : Theory) (clauses : List Clause) (count : Counter) : Query Float := do
  let t := t.addHardRules (.ofList clauses)
  let counts ← t.cutCounts count
  let ruleAtoms := OrdSet.ofList ((clauses.flatMap Clause.toList).map Literal.positive)
  let free := (t.atoms.diff ruleAtoms).size
  let all := log2 (← count clauses) + (UInt64.ofNat free).toFloat
  return (summands t.weights (counts ++ [all])).foldl (· + ·) (-0.0)

end Defeasible.Theory
