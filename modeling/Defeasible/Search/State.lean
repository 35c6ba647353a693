import Defeasible.PriorityQueue
import Defeasible.Luby
import Defeasible.Pcg
import Defeasible.Search.Trail
import Defeasible.Settings

/-! The state of a search for a valuation that satisfies a growing collection of clauses. Atoms are
numbered from 1. Each stored clause has at least two literals, and its first two are watched: as long
as neither is false, the clause has nothing to say. -/

namespace Defeasible.Search

structure Counters where
  conflicts : Nat := 0
  decisions : Nat := 0
  propagations : Nat := 0
  restarts : Nat := 0
  deriving DecidableEq

structure State where
  settings : Settings
  values : Array (Option Bool) := #[none]
  phases : Array Bool := #[false]
  levels : Array Nat := #[0]
  reasons : Array (Option Nat) := #[none]
  clauses : Array (Array Lit) := #[]
  watches : Array (Array Nat) := #[#[], #[]]
  trail : Trail := {}
  /-- How often each atom was part of recent conflicts. Every atom without value waits here. -/
  activity : PriorityQueue Float := {}
  bump : Float := 1
  seen : Array Bool := #[false]
  luby : Luby
  conflictsSinceRestart : Nat := 0
  restartThreshold : Nat
  random : Pcg := Pcg.ofSeed 0
  refuted : Bool := false
  counters : Counters := {}
  checks : Nat := 0

namespace State

def nextThreshold (settings : Settings) (luby : Luby) : Nat × Luby :=
  let (element, luby) := luby.next
  (settings.lubyUnit.value * (element.getD 1).toNat, luby)

def new (settings : Settings) : State :=
  let (restartThreshold, luby) := nextThreshold settings {}
  { settings, luby, restartThreshold }

def atomCount (s : State) : Nat := s.values.size - 1

def newAtom (s : State) : Atom × State :=
  let atom := s.values.size
  (atom, { s with
    values := s.values.push none
    phases := s.phases.push false
    levels := s.levels.push 0
    reasons := s.reasons.push none
    seen := s.seen.push false
    watches := (s.watches.push #[]).push #[]
    activity := ((s.activity.put atom 0).2.enqueue atom).2 })

def newAtoms (s : State) : Nat → State
  | 0 => s
  | count + 1 => newAtoms s.newAtom.2 count

def knows (s : State) (l : Lit) : Bool := l.atom < s.values.size

def value? (s : State) (atom : Atom) : Option Bool := s.values[atom]?.join

def litValue? (s : State) (l : Lit) : Option Bool := (s.value? l.atom).map (· == l.polarity)

def level (s : State) (atom : Atom) : Nat := s.levels.getD atom 0

def isSeen (s : State) (atom : Atom) : Bool := s.seen.getD atom false

def valuation (s : State) : List Lit :=
  (List.range s.atomCount).filterMap fun i => (s.value? (i + 1)).map (Lit.mk (i + 1))

def assign (s : State) (l : Lit) (reason : Option Nat) : State :=
  { s with
    values := s.values.setIfInBounds l.atom (some l.polarity)
    phases := s.phases.setIfInBounds l.atom l.polarity
    levels := s.levels.setIfInBounds l.atom s.trail.level
    reasons := s.reasons.setIfInBounds l.atom reason
    trail := s.trail.push l }

def release (s : State) (l : Lit) : State :=
  { s with
    values := s.values.setIfInBounds l.atom none
    reasons := s.reasons.setIfInBounds l.atom none
    activity := (s.activity.enqueue l.atom).2 }

def backjump (s : State) (target : Nat) : State :=
  if s.trail.level ≤ target then s
  else
    let (literals, trail) := s.trail.clearAbove target
    literals.foldl release { s with trail }

def watch (s : State) (l : Lit) (key : Nat) : State :=
  { s with watches := s.watches.modify l.watchIndex (·.push key) }

def store (s : State) (first second : Lit) (rest : List Lit) : Nat × State :=
  let key := s.clauses.size
  let s := (s.watch first key).watch second key
  (key, { s with clauses := s.clauses.push (first :: second :: rest).toArray })

end State

end Defeasible.Search
