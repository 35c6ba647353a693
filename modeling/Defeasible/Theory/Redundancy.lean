import Defeasible.StableSort
import Defeasible.Theory.Query

/-! Theories without what the rest implies: clauses that follow from the others of their level and from
the levels above, and literals that a clause can lose in the same way. -/

namespace Defeasible.Theory

def follows (t : Theory) (c : Clause) (clauses strictCut : ClauseSet) : Query Bool := do
  return (← t.solveProblem (clauses ∪ units c.negated ∪ strictCut)).isNone

def isImplied (t : Theory) (c : Clause) (level strictCut : ClauseSet) : Query Bool :=
  t.follows c (level.erase c) strictCut

def keepUnimplied (t : Theory) (strictCut : ClauseSet) : List Clause → (level : ClauseSet) →
    Query (List Clause)
  | [], _ => return []
  | c :: cs, level => do
    if ← t.isImplied c level strictCut then keepUnimplied t strictCut cs (level.erase c)
    else return c :: (← keepUnimplied t strictCut cs level)

def withoutImplied (t : Theory) : Query Theory := do
  let levels ← t.levels.mapM fun l => do
    let byLength := stableSort (fun c d => d.size ≤ c.size) l.clauses.toList
    return ⟨l.necessity, .ofList (← t.keepUnimplied (t.strictCut l.necessity) byLength l.clauses)⟩
  return t.withLevels levels

def shorter? (t : Theory) (strictCut level : ClauseSet) (c : Clause) : List Literal → Query (Option Clause)
  | [] => return none
  | l :: ls => do
    if ← t.follows (c.without l) level strictCut then return some (c.without l)
    else shorter? t strictCut level c ls

/-- The level after a clause has lost all literals it can, at most `fuel` of them. One literal stays. -/
def shorten (t : Theory) (strictCut : ClauseSet) : (fuel : Nat) → Clause → (level : ClauseSet) →
    Query ClauseSet
  | 0, _, level => return level
  | fuel + 1, c, level => do
    if c.size ≤ 1 then return level
    match ← t.shorter? strictCut level c c.toList with
    | none => return level
    | some shorter => shorten t strictCut fuel shorter ((level.erase c).insert shorter)

def simplifyBySat (t : Theory) : Query Theory := do
  let levels ← t.levels.mapM fun l => do
    let clauses ← l.clauses.toList.foldlM (fun level c => t.shorten (t.strictCut l.necessity) c.size c level)
      l.clauses
    return ⟨l.necessity, clauses⟩
  return t.withLevels levels

end Defeasible.Theory
