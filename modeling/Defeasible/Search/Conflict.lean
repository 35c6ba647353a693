import Defeasible.Search.Propagation

/-! Clauses learnt from conflicts. The clause in conflict is resolved with the reasons of its literals,
last first, until a single literal of the current level is left. Each atom that is met becomes more
active. -/

namespace Defeasible.Search

/-- A clause that forces its first literal once the levels above `backjumpLevel` are taken back. If it
has a second literal, that one belongs to this level. -/
structure Learnt where
  asserted : Lit
  others : Array Lit
  backjumpLevel : Nat
  deriving DecidableEq

def Learnt.toList (l : Learnt) : List Lit := l.asserted :: l.others.toList

namespace State

def activityLimit : Float := 1e100

def shrink : Float := 1e-100

def bumpActivity (s : State) (atom : Atom) : State :=
  let activity := (s.activity.modify? atom (· + s.bump)).getD s.activity
  match activity.value? atom with
  | some value =>
    if activityLimit < value then
      { s with activity := activity.mapValues (· * shrink), bump := s.bump * shrink }
    else { s with activity }
  | none => { s with activity }

def decayActivity (s : State) : State :=
  { s with bump := s.bump / s.settings.activityDecay.value }

def mark (s : State) (atom : Atom) (seen : Bool) : State :=
  { s with seen := s.seen.setIfInBounds atom seen }

/-- Marks the literals of a clause, but for the pivot, those marked before and those of level zero.
Those of the current level are counted, and the others collected. -/
def markLits (level : Nat) (pivot : Option Atom) :
    List Lit → State → (unresolved : Nat) → (others : Array Lit) → State × Nat × Array Lit
  | [], s, unresolved, others => (s, unresolved, others)
  | l :: ls, s, unresolved, others =>
    if pivot = some l.atom ∨ s.isSeen l.atom ∨ s.level l.atom = 0 then
      markLits level pivot ls s unresolved others
    else
      let s := (s.mark l.atom true).bumpActivity l.atom
      if s.level l.atom = level then markLits level pivot ls s (unresolved + 1) others
      else markLits level pivot ls s unresolved (others.push l)

def lastSeen? (s : State) : (i : Nat) → Option (Nat × Lit)
  | 0 => none
  | i + 1 =>
    match s.trail.literals[i]? with
    | none => lastSeen? s i
    | some l => if s.isSeen l.atom then some (i, l) else lastSeen? s i

def resolve (level : Nat) :
    (fuel : Nat) → State → (key : Nat) → (pivot : Option Atom) → (unresolved : Nat) →
    (others : Array Lit) → (i : Nat) → Except Error (Lit × Array Lit) × State
  | 0, s, _, _, _, _, _ => (.error (.fault .unfinished), s)
  | fuel + 1, s, key, pivot, unresolved, others, i =>
    let clause := s.clauses.getD key #[]
    let (s, unresolved, others) := markLits level pivot clause.toList s unresolved others
    if unresolved = 0 then (.error (.analysis .noAssertion), s)
    else match s.lastSeen? i with
      | none => (.error (.analysis .emptyResolution), s)
      | some (i, l) =>
        let s := s.mark l.atom false
        if unresolved = 1 then (.ok (l.negate, others), s)
        else match s.reasons[l.atom]?.join with
          | none => (.error (.analysis .missingReason), s)
          | some reason => resolve level fuel s reason (some l.atom) (unresolved - 1) others i

def highest (s : State) (others : Array Lit) : (fuel : Nat) → (i best : Nat) → Nat
  | 0, _, best => best
  | fuel + 1, i, best =>
    let levelAt (i : Nat) : Nat := s.level (others.getD i default).atom
    highest s others fuel (i + 1) (if levelAt best < levelAt i then i else best)

def analyse (s : State) (key : Nat) : Except Error Learnt × State :=
  if s.clauses.size ≤ key then (.error (.fault .outOfBounds), s)
  else
    match resolve s.trail.level (s.trail.literals.size + 1) s key none 0 #[] s.trail.literals.size with
    | (.error e, s) => (.error e, s)
    | (.ok (asserted, others), s) =>
      let s := others.foldl (fun s l => s.mark l.atom false) s
      let others := others.swapIfInBounds 0 (s.highest others (others.size - 1) 1 0)
      (.ok ⟨asserted, others, (others[0]?.map fun l => s.level l.atom).getD 0⟩, s)

def learn (s : State) (learnt : Learnt) : State :=
  let s := s.backjump learnt.backjumpLevel
  match learnt.others.toList with
  | [] => s.assign learnt.asserted none
  | second :: rest =>
    let (key, s) := s.store learnt.asserted second rest
    s.assign learnt.asserted (some key)

end State

end Defeasible.Search
