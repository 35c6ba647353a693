import Defeasible.Search.Conflict

/-! Decisions. Assumptions come first, each on a level of its own, and then free choices. -/

namespace Defeasible.Search

inductive Decision
  | decided (l : Lit)
  /-- The next assumption holds already; it gets an empty level. -/
  | satisfied
  | assumptionConflict
  | exhausted
  deriving DecidableEq

namespace State

def decide (s : State) (l : Lit) : State := { s with trail := s.trail.openLevel }.assign l none

def popUnvalued : (fuel : Nat) → State → Option Atom × State
  | 0, s => (none, s)
  | fuel + 1, s =>
    match s.activity.pop with
    | (none, activity) => (none, { s with activity })
    | (some atom, activity) =>
      let s := { s with activity }
      if (s.value? atom).isNone then (some atom, s) else popUnvalued fuel s

def mostActive (s : State) : Option Atom × State := popUnvalued (s.activity.heap.size + 1) s

def unvalued (s : State) : List Atom :=
  ((List.range s.atomCount).map (· + 1)).filter fun atom => (s.value? atom).isNone

def anyAtom (s : State) : Except Fault (Option Atom) × State :=
  let unvalued := s.unvalued
  if unvalued.isEmpty then
    let (atom, s) := s.mostActive
    (.ok atom, s)
  else match s.random.below unvalued.length with
    | (.error e, random) => (.error e, { s with random })
    | (.ok i, random) =>
      let atom := unvalued.getD i 0
      (.ok (some atom), { s with random, activity := (s.activity.remove atom).2 })

def choose (s : State) : Except Fault (Option Atom) × State :=
  let bias := s.settings.randomDecisionBias.value
  if 0 < bias then
    match s.random.chance bias with
    | (.error e, random) => (.error e, { s with random })
    | (.ok true, random) => anyAtom { s with random }
    | (.ok false, random) =>
      let (atom, s) := mostActive { s with random }
      (.ok atom, s)
  else
    let (atom, s) := s.mostActive
    (.ok atom, s)

def polarity (s : State) (atom : Atom) : Except Fault Bool × State :=
  if s.settings.phaseSaving.value then (.ok (s.phases.getD atom false), s)
  else
    let (polarity, random) := s.random.chance s.settings.polarityLean.value
    (polarity, { s with random })

def decideFreely (s : State) : Except Fault Decision × State :=
  match s.choose with
  | (.error e, s) => (.error e, s)
  | (.ok none, s) => (.ok .exhausted, s)
  | (.ok (some atom), s) =>
    match s.polarity atom with
    | (.error e, s) => (.error e, s)
    | (.ok polarity, s) =>
      let counters := { s.counters with decisions := s.counters.decisions + 1 }
      (.ok (.decided ⟨atom, polarity⟩), { s with counters }.decide ⟨atom, polarity⟩)

/-- Makes the next decision. The level tells which assumption is next. -/
def makeDecision (s : State) (assumptions : List Lit) : Except Fault Decision × State :=
  match assumptions[s.trail.level]? with
  | none => s.decideFreely
  | some l =>
    if !s.knows l then (.error .outOfBounds, s)
    else match s.litValue? l with
      | some true => (.ok .satisfied, { s with trail := s.trail.openLevel })
      | some false => (.ok .assumptionConflict, s)
      | none => (.ok (.decided l), s.decide l)

end State

end Defeasible.Search
