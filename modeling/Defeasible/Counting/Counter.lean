import Defeasible.Session

/-! Model counts: how many valuations of the atoms of some clauses satisfy all of them. Here they are
found one after the other, and each one found is excluded from then on. -/

namespace Defeasible

abbrev Counter := List Clause → Query Nat

namespace Counter

def blocking (atoms : List Literal) (witness : Witness) : Clause :=
  .ofList (atoms.map fun l => if witness.has l then l.negate else l)

def countFrom (atoms : List Literal) : (fuel : Nat) → Solver → (count : Nat) → Query Nat
  | 0, _, _ => throw (.fault .unfinished)
  | fuel + 1, solver, count => do
    let watch ← Query.nextWatch
    let (answer, solver) := solver.solve watch
    match ← Query.ofExcept id answer with
    | none => return count
    | some witness =>
      let solver ← Query.ofExcept .engine (solver.addClause (blocking atoms witness))
      countFrom atoms fuel solver (count + 1)

/-- Counts by enumeration. There are at most as many models as valuations. -/
def enumeration (settings : Settings) : Counter := fun clauses => do
  let solver ← Query.ofExcept .engine (Solver.new clauses [] settings)
  countFrom solver.numbering.literals (Nat.pow 2 solver.numbering.size + 1) solver 0

end Counter

end Defeasible
