import Defeasible.Ground.Numbering
import Defeasible.StableSort

/-! Clauses as numbers, in the DIMACS format: a header with the counts of atoms and clauses, and a line
for each clause with its signed atoms in ascending order of number, each followed by a tab, and a zero. -/

namespace Defeasible.Dimacs

open Search (Lit)

def header (atoms clauses : Nat) : String := "p cnf " ++ toString atoms ++ " " ++ toString clauses ++ "\n"

def line (lits : List Lit) : String :=
  let ints := stableSort (fun i j => i.natAbs ≤ j.natAbs) (lits.map Lit.toInt)
  String.join (ints.map fun i => toString i ++ "\t") ++ "0\n"

def write (clauses : List Clause) : Except EngineError (String × Numbering) := do
  let n ← Numbering.registerClauses {} clauses
  let lines ← clauses.mapM fun c => do return line (← n.clause c)
  return (header n.size clauses.length ++ String.join lines ++ "\n", n)

end Defeasible.Dimacs
