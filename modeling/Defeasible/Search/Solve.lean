import Defeasible.Search.Decision

/-! The search for a model: propagation, and then either a learnt clause or a decision, in turn. -/

namespace Defeasible.Search

/-- Whether the time is up, at each look at it. -/
abbrev Deadline := Nat → Bool

def Deadline.never : Deadline := fun _ => false

inductive Report
  | satisfiable
  | unsatisfiable
  | assumptionConflict
  | timeUp
  deriving DecidableEq

namespace State

def restart (s : State) : State :=
  let (restartThreshold, luby) := nextThreshold s.settings s.luby
  let counters := { s.counters with restarts := s.counters.restarts + 1 }
  { s with counters, luby, restartThreshold, conflictsSinceRestart := 0 }.backjump 0

def restartIfDue (s : State) : State :=
  if s.settings.restart.value && s.restartThreshold ≤ s.conflictsSinceRestart then s.restart else s

def countConflict (s : State) : State :=
  { s with
    counters := { s.counters with conflicts := s.counters.conflicts + 1 }
    conflictsSinceRestart := s.conflictsSinceRestart + 1 }

def resolveConflict (s : State) (key : Nat) : Except Error Unit × State :=
  match s.analyse key with
  | (.error e, s) => (.error e, s)
  | (.ok learnt, s) => (.ok (), (s.learn learnt).decayActivity.restartIfDue)

def pass (assumptions : List Lit) (deadline : Deadline) (s : State) :
    (Except Error Report × State) ⊕ State :=
  match s.propagate with
  | (some key, s) =>
    let s := s.countConflict
    if !s.trail.isDecided then .inl (.ok .unsatisfiable, { s with refuted := true })
    else match s.resolveConflict key with
      | (.error e, s) => .inl (.error e, s)
      | (.ok (), s) => .inr s
  | (none, s) =>
    let timeUp := deadline s.checks
    let s := { s with checks := s.checks + 1 }
    if timeUp then .inl (.ok .timeUp, s)
    else match s.makeDecision assumptions with
      | (.error e, s) => .inl (.error (.fault e), s)
      | (.ok .assumptionConflict, s) => .inl (.ok .assumptionConflict, s)
      | (.ok .exhausted, s) => .inl (.ok .satisfiable, s)
      | (.ok _, s) => .inr s

def search (assumptions : List Lit) (deadline : Deadline) :
    (fuel : Nat) → State → Except Error Report × State
  | 0, s => (.error (.fault .unfinished), s)
  | fuel + 1, s =>
    match pass assumptions deadline s with
    | .inl answer => answer
    | .inr s => search assumptions deadline fuel s

/-- No clause is learnt twice, and between two conflicts there are at most as many decisions as atoms
and assumptions. -/
def searchBound (s : State) (assumptions : List Lit) : Nat :=
  (Nat.pow 4 s.values.size + 1) * (s.values.size + assumptions.length + 3)

/-- Whether the clauses have a model that makes the assumptions true. Learnt clauses are kept, since they
follow from the clauses alone. -/
def solve (s : State) (assumptions : List Lit) (deadline : Deadline) : Except Error Report × State :=
  let s := s.backjump 0
  if s.refuted then (.ok .unsatisfiable, s)
  else search assumptions deadline (s.searchBound assumptions) s

end State

end Defeasible.Search
