import Defeasible.Theory.Basic

/-! Shorter clauses by resolution: a clause that holds the negation of a literal and all other literals of
a clause at its level or above loses this negation. -/

namespace Defeasible.Theory

def resolveOn (resolver : Clause) (c : Clause) (l : Literal) : Clause :=
  if c.has l.negate && (resolver.without l).literals.isSubset c.literals then c.without l.negate else c

def resolveAll (resolvers : List Clause) (c : Clause) : Clause :=
  resolvers.foldl (fun c resolver => resolver.toList.foldl (resolveOn resolver) c) c

/-- The levels, from the highest one on, where each resolves itself and all below it. There are `count`
of them. -/
def resolveDown : (count : Nat) → List (List Clause) → List (List Clause)
  | 0, levels => levels
  | _ + 1, [] => []
  | count + 1, level :: levels =>
    level.map (resolveAll level) :: resolveDown count (levels.map (·.map (resolveAll level)))

def simplifyByResolution (t : Theory) : Theory :=
  let resolved := (resolveDown t.levels.length (t.strata.map OrdSet.toList).reverse).reverse
  t.withLevels ((t.weights.zip resolved).map fun (n, clauses) => ⟨n, .ofList clauses⟩)

end Defeasible.Theory
