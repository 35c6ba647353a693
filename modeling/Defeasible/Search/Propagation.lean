import Defeasible.Search.State

/-! Consequences of the literals on the trail. A literal that becomes false is looked up in the clauses
that watch it: another literal that is not false takes over the watch, or else the other watched
literal is forced, or in conflict. -/

namespace Defeasible.Search.State

def swapRemove (keys : Array Nat) (i : Nat) : Array Nat :=
  match keys.back? with
  | none => keys
  | some last => (keys.setIfInBounds i last).pop

def findWatch (s : State) (clause : Array Lit) : (fuel : Nat) → (i : Nat) → Option Nat
  | 0, _ => none
  | fuel + 1, i =>
    match clause[i]? with
    | none => none
    | some l => if s.litValue? l ≠ some false then some i else findWatch s clause fuel (i + 1)

def turn (falsified : Lit) (clause : Array Lit) : Array Lit :=
  if clause[0]? = some falsified then clause.swapIfInBounds 0 1 else clause

def setClause (s : State) (key : Nat) (clause : Array Lit) : State :=
  { s with clauses := s.clauses.setIfInBounds key clause }

def moveWatch (s : State) (key : Nat) (clause : Array Lit) (place : Nat) : State :=
  let clause := clause.swapIfInBounds 1 place
  (s.setClause key clause).watch (clause.getD 1 default) key

/-- Goes through the clauses from place `i` on that watch a literal which has become false. The answer
is a clause in conflict, if there is one, and the clauses that still watch the literal. -/
def visit (falsified : Lit) :
    (fuel : Nat) → State → (keys : Array Nat) → (i : Nat) → Option Nat × State × Array Nat
  | 0, s, keys, _ => (none, s, keys)
  | fuel + 1, s, keys, i =>
    match keys[i]? with
    | none => (none, s, keys)
    | some key =>
      let clause := turn falsified (s.clauses.getD key #[])
      let other := clause.getD 0 default
      let s := s.setClause key clause
      match s.litValue? other with
      | some true => visit falsified fuel s keys (i + 1)
      | value =>
        match s.findWatch clause (clause.size - 2) 2 with
        | some place => visit falsified fuel (s.moveWatch key clause place) (swapRemove keys i) i
        | none =>
          match value with
          | none => visit falsified fuel (s.assign other (some key)) keys (i + 1)
          | some _ => (some key, s, keys)

def propagateLit (s : State) (l : Lit) : Option Nat × State :=
  let falsified := l.negate
  let keys := s.watches.getD falsified.watchIndex #[]
  let s := { s with watches := s.watches.setIfInBounds falsified.watchIndex #[] }
  let (conflict, s, keys) := visit falsified keys.size s keys 0
  (conflict, { s with watches := s.watches.setIfInBounds falsified.watchIndex keys })

def propagateUpTo : (fuel : Nat) → State → Option Nat × State
  | 0, s => (none, s)
  | fuel + 1, s =>
    match s.trail.next? with
    | none => (none, s)
    | some (l, trail) =>
      let counters := { s.counters with propagations := s.counters.propagations + 1 }
      match propagateLit { s with trail, counters } l with
      | (some key, s) => (some key, s)
      | (none, s) => propagateUpTo fuel s

/-- Draws all consequences, until a clause is in conflict. Every literal is on the trail once, so the
literals there and the atoms bound the number of steps. -/
def propagate (s : State) : Option Nat × State :=
  propagateUpTo (s.trail.literals.size + s.values.size + 1) s

def simplify (s : State) (kept : List Lit) : List Lit → Except Fault (Option (List Lit))
  | [] => .ok (some kept)
  | l :: ls =>
    if !s.knows l then .error .outOfBounds
    else match s.litValue? l with
      | some true => .ok none
      | some false => simplify s kept ls
      | none =>
        if l.negate ∈ kept then .ok none
        else if l ∈ kept then simplify s kept ls
        else simplify s (kept ++ [l]) ls

/-- Adds a clause at level zero. Literals that are false there are dropped, and so is the clause if it
holds there. -/
def addClause (s : State) (clause : List Lit) : Except Fault State :=
  let s := s.backjump 0
  if s.refuted then .ok s
  else match s.simplify [] clause with
    | .error e => .error e
    | .ok none => .ok s
    | .ok (some []) => .ok { s with refuted := true }
    | .ok (some [l]) =>
      match (s.assign l none).propagate with
      | (some _, s) => .ok { s with refuted := true }
      | (none, s) => .ok s
    | .ok (some (first :: second :: rest)) => .ok (s.store first second rest).2

def addClauses (s : State) : List (List Lit) → Except Fault State
  | [] => .ok s
  | clause :: clauses => match s.addClause clause with
    | .error e => .error e
    | .ok s => addClauses s clauses

end Defeasible.Search.State
