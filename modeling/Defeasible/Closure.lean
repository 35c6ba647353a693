import Defeasible.DefaultRule
import Defeasible.Theory.Query

/-! Rankings of default rules, and the theories made from them. A rule is tolerated by some rules if its
antecedent is consistent with the implications of these. The rules tolerated by all make the first rank,
those tolerated by the rest the second, and so on. -/

namespace Defeasible

abbrev Rank := OrdSet DefaultRule

def implications (rules : OrdSet DefaultRule) : ClauseSet :=
  .ofList (rules.toList.map DefaultRule.implication)

def tolerated (solver : Solver) : List DefaultRule → Query (List DefaultRule)
  | [] => return []
  | r :: rules => do
    let watch ← Query.nextWatch
    let (answer, solver) := solver.solveAssuming r.evidence.toList watch
    let witness ← Query.ofExcept id answer
    let others ← tolerated solver rules
    return if witness.isSome then r :: others else others

def rankUpTo (settings : Settings) : (fuel : Nat) → OrdSet DefaultRule → Query (Option (List Rank))
  | 0, _ => return some []
  | fuel + 1, rules => do
    if rules.isEmpty then return some []
    let solver ← Query.ofExcept .engine (Solver.new (implications rules).toList [] settings)
    let rank := OrdSet.ofList (← tolerated solver rules.toList)
    if rank.isEmpty then return none
    return (← rankUpTo settings fuel (rules.diff rank)).map (rank :: ·)

/-- The ranks of rules, the most general first. Each holds a rule, so there are at most as many ranks as
rules. -/
def ranking (settings : Settings) (rules : OrdSet DefaultRule) : Query (Option (List Rank)) :=
  rankUpTo settings rules.size rules

/-- The theory with a level for each rank, the most general rules being the least certain. -/
def rationalClosure (settings : Settings) (rules : OrdSet DefaultRule) : Query (Option Theory) := do
  return (← ranking settings rules).map fun ranks =>
    (Theory.ofStrata (ranks.map implications)).withSettings settings

end Defeasible
