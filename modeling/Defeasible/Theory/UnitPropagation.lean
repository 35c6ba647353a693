import Defeasible.Theory.Basic

/-! Shorter clauses by unit clauses: a literal is dropped where its negation is a clause of the same level
or of one above. -/

namespace Defeasible.Theory

def negatedUnits (clauses : List Clause) : LiteralSet :=
  .ofList ((clauses.filter fun c => c.size = 1).flatMap Clause.negated)

def dropLiterals (dropped : LiteralSet) (c : Clause) : Clause :=
  ⟨c.literals.filter fun l => !dropped.has l⟩

def propagateUnits : List ClauseSet → Bool × List ClauseSet
  | [] => (false, [])
  | level :: levels =>
    let dropped := negatedUnits (level.toList ++ levels.flatMap OrdSet.toList)
    let changed := level.toList.any fun c => c.toList.any dropped.has
    let (changedAbove, levels) := propagateUnits levels
    (changed || changedAbove, .ofList (level.toList.map (dropLiterals dropped)) :: levels)

def propagateUnitsUpTo : (fuel : Nat) → List ClauseSet → List ClauseSet
  | 0, levels => levels
  | fuel + 1, levels =>
    match propagateUnits levels with
    | (true, levels) => propagateUnitsUpTo fuel levels
    | (false, levels) => levels

/-- The theory with its clauses shortened by unit clauses. Each round but the last drops a literal. -/
def simplifyByUnits (t : Theory) : Theory :=
  t.withLevels ((t.weights.zip (propagateUnitsUpTo (t.literalCount + 1) t.strata)).map
    fun (n, clauses) => ⟨n, clauses⟩)

end Defeasible.Theory
