import Defeasible.Ground.Solver

/-! A session of satisfiability queries. It holds the answers known so far, for those who share them,
and the time that each solve takes. A failed query gives no answer to remember. -/

namespace Defeasible

/-- Answers by problem, where a problem is the exact set of clauses. -/
structure AnswerCache where
  entries : List (ClauseSet × Option Witness) := []
  hits : Nat := 0
  misses : Nat := 0
  deriving DecidableEq, Inhabited

namespace AnswerCache

def size (c : AnswerCache) : Nat := c.entries.length

def isEmpty (c : AnswerCache) : Bool := c.entries.isEmpty

def find? (c : AnswerCache) (problem : ClauseSet) : Option (Option Witness) :=
  (c.entries.find? fun e => e.1 = problem).map (·.2)

def hit (c : AnswerCache) : AnswerCache := { c with hits := c.hits + 1 }

def miss (c : AnswerCache) : AnswerCache := { c with misses := c.misses + 1 }

def store (c : AnswerCache) (problem : ClauseSet) (answer : Option Witness) : AnswerCache :=
  { c with entries := (problem, answer) :: c.entries }

end AnswerCache

structure Session where
  cache : AnswerCache := {}
  solves : Nat := 0
  watches : Nat → Stopwatch := fun _ _ => 0

abbrev Query (α : Type) := ExceptT Error (StateM Session) α

namespace Query

def run {α : Type} (q : Query α) (s : Session) : Except Error α × Session := q s

def nextWatch : Query Stopwatch := fun s => (.ok (s.watches s.solves), { s with solves := s.solves + 1 })

def ofExcept {α ε : Type} (f : ε → Error) : Except ε α → Query α
  | .ok a => pure a
  | .error e => throw (f e)

def solveFresh (settings : Settings) (problem : ClauseSet) : Query (Option Witness) := do
  let solver ← ofExcept .engine (Solver.new problem.toList [] settings)
  let watch ← nextWatch
  ofExcept id (solver.solve watch).1

/-- The known answer to a problem, or else the computed one, which is known from then on. -/
def remembered (problem : ClauseSet) (compute : Query (Option Witness)) : Query (Option Witness) := fun s =>
  match s.cache.find? problem with
  | some answer => (.ok answer, { s with cache := s.cache.hit })
  | none => match compute { s with cache := s.cache.miss } with
    | (.error e, s) => (.error e, s)
    | (.ok answer, s) => (.ok answer, { s with cache := s.cache.store problem answer })

end Query

end Defeasible
