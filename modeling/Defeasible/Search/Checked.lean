import Defeasible.Search.Solve

/-! The search without any bound on its loops, where every access to the arrays of a state is checked. A
loop that does not end has no result, and an access to a place that is not there is a fault. -/

namespace Defeasible.Search.Checked

open State

/-- A result, a fault, or nothing at all for a loop without end. -/
abbrev Run := ExceptT Fault Option

noncomputable section

section Loop

variable {σ α : Type}

def rounds (step : σ → Run (α ⊕ σ)) : (count : Nat) → σ → Run α
  | 0, _ => ExceptT.mk none
  | count + 1, s => step s >>= Sum.elim pure (rounds step count)

open Classical in
def loop (step : σ → Run (α ⊕ σ)) (s : σ) : Run α :=
  if h : ∃ count, rounds step count s ≠ ExceptT.mk none then rounds step h.choose s else ExceptT.mk none

end Loop

section Access

variable {α : Type}

def get (xs : Array α) (i : Nat) : Run α :=
  match xs[i]? with
  | some x => pure x
  | none => throw .outOfBounds

def set (xs : Array α) (i : Nat) (x : α) : Run (Array α) :=
  if i < xs.size then pure (xs.setIfInBounds i x) else throw .outOfBounds

def swap (xs : Array α) (i j : Nat) : Run (Array α) :=
  if i < xs.size ∧ j < xs.size then pure (xs.swapIfInBounds i j) else throw .outOfBounds

end Access

section Queue

variable {V : Type} [LT V] [DecidableLT V]

def siftUp (q : PriorityQueue V) (place : Nat) : Run (PriorityQueue V) :=
  loop (fun (q, place) =>
    if place = 0 then return .inl q
    else
      let parent := (place - 1) / 2
      if q.above place parent then return .inr (q.swap place parent, parent) else return .inl q)
    (q, place)

def siftDown (q : PriorityQueue V) (place : Nat) : Run (PriorityQueue V) :=
  loop (fun (q, place) =>
    let top := q.greatest place
    if top = place then return .inl q else return .inr (q.swap place top, top))
    (q, place)

def repair (q : PriorityQueue V) (index : Nat) : Run (PriorityQueue V) := do
  match q.place? index with
  | none => return q
  | some place =>
    let q ← siftUp q place
    match q.place? index with
    | none => return q
    | some place => siftDown q place

def modify (q : PriorityQueue V) (index : Nat) (f : V → V) : Run (PriorityQueue V) := do
  let value ← get q.values index
  repair { q with values := q.values.setIfInBounds index (f value) } index

def enqueue (q : PriorityQueue V) (index : Nat) : Run (PriorityQueue V) :=
  if q.values.size ≤ index ∨ q.isWaiting index then return q
  else
    let place := q.heap.size
    siftUp { q with
      heap := q.heap.push index
      places := q.places.setIfInBounds index (some place) } place

def remove (q : PriorityQueue V) (index : Nat) : Run (PriorityQueue V) := do
  match q.place? index with
  | none => return q
  | some place =>
    let q := q.swap place (q.heap.size - 1)
    let q := { q with heap := q.heap.pop, places := q.places.setIfInBounds index none }
    if place < q.heap.size then siftUp (← siftDown q place) place else return q

def pop (q : PriorityQueue V) : Run (Option Nat × PriorityQueue V) := do
  match q.peek? with
  | none => return (none, q)
  | some index => return (some index, ← remove q index)

end Queue

def litValue? (s : State) (l : Lit) : Run (Option Bool) := do
  let value ← get s.values l.atom
  return value.map (· == l.polarity)

def assign (s : State) (l : Lit) (reason : Option Nat) : Run State := do
  let values ← set s.values l.atom (some l.polarity)
  let phases ← set s.phases l.atom l.polarity
  let levels ← set s.levels l.atom s.trail.level
  let reasons ← set s.reasons l.atom reason
  return { s with values, phases, levels, reasons, trail := s.trail.push l }

def release (s : State) (l : Lit) : Run State := do
  let values ← set s.values l.atom none
  let reasons ← set s.reasons l.atom none
  return { s with values, reasons, activity := ← enqueue s.activity l.atom }

def releaseAll : List Lit → State → Run State
  | [], s => return s
  | l :: ls, s => do releaseAll ls (← release s l)

def backjump (s : State) (target : Nat) : Run State := do
  if s.trail.level ≤ target then return s
  else
    let start ← get s.trail.starts target
    if s.trail.literals.size < start then throw .outOfBounds
    else
      let (literals, trail) := s.trail.clearAbove target
      releaseAll literals { s with trail }

def watch (s : State) (l : Lit) (key : Nat) : Run State := do
  let keys ← get s.watches l.watchIndex
  let watches ← set s.watches l.watchIndex (keys.push key)
  return { s with watches }

def store (s : State) (first second : Lit) (rest : List Lit) : Run (Nat × State) := do
  let key := s.clauses.size
  let s ← watch (← watch s first key) second key
  return (key, { s with clauses := s.clauses.push (first :: second :: rest).toArray })

def findWatch (s : State) (clause : Array Lit) : (count : Nat) → (i : Nat) → Run (Option Nat)
  | 0, _ => return none
  | count + 1, i => do
    let l ← get clause i
    if (← litValue? s l) ≠ some false then return some i else findWatch s clause count (i + 1)

def turn (falsified : Lit) (clause : Array Lit) : Run (Array Lit) := do
  if (← get clause 0) = falsified then swap clause 0 1 else return clause

def setClause (s : State) (key : Nat) (clause : Array Lit) : Run State := do
  let clauses ← set s.clauses key clause
  return { s with clauses }

def moveWatch (s : State) (key : Nat) (clause : Array Lit) (place : Nat) : Run State := do
  let clause ← swap clause 1 place
  watch (← setClause s key clause) (← get clause 1) key

def visit (falsified : Lit) (s : State) (keys : Array Nat) (i : Nat) :
    Run (Option Nat × State × Array Nat) :=
  loop (fun (s, keys, i) => do
    match keys[i]? with
    | none => return .inl (none, s, keys)
    | some key =>
      let clause ← turn falsified (← get s.clauses key)
      let other ← get clause 0
      let s ← setClause s key clause
      match ← litValue? s other with
      | some true => return .inr (s, keys, i + 1)
      | value =>
        match ← findWatch s clause (clause.size - 2) 2 with
        | some place => return .inr (← moveWatch s key clause place, swapRemove keys i, i)
        | none =>
          match value with
          | none => return .inr (← assign s other (some key), keys, i + 1)
          | some _ => return .inl (some key, s, keys))
    (s, keys, i)

def propagateLit (s : State) (l : Lit) : Run (Option Nat × State) := do
  let falsified := l.negate
  let keys ← get s.watches falsified.watchIndex
  let watches ← set s.watches falsified.watchIndex #[]
  let (conflict, s, keys) ← visit falsified { s with watches } keys 0
  let watches ← set s.watches falsified.watchIndex keys
  return (conflict, { s with watches })

def propagate (s : State) : Run (Option Nat × State) :=
  loop (fun s => do
    match s.trail.next? with
    | none => return .inl (none, s)
    | some (l, trail) =>
      let counters := { s.counters with propagations := s.counters.propagations + 1 }
      match ← propagateLit { s with trail, counters } l with
      | (some key, s) => return .inl (some key, s)
      | (none, s) => return .inr s)
    s

def bumpActivity (s : State) (atom : Atom) : Run State := do
  let activity ← modify s.activity atom (· + s.bump)
  if activityLimit < (← get activity.values atom) then
    return { s with activity := activity.mapValues (· * shrink), bump := s.bump * shrink }
  else return { s with activity }

def mark (s : State) (atom : Atom) (seen : Bool) : Run State := do
  let seen ← set s.seen atom seen
  return { s with seen }

def markLits (level : Nat) (pivot : Option Atom) :
    List Lit → State → (unresolved : Nat) → (others : Array Lit) → Run (State × Nat × Array Lit)
  | [], s, unresolved, others => return (s, unresolved, others)
  | l :: ls, s, unresolved, others => do
    if pivot = some l.atom then markLits level pivot ls s unresolved others
    else if (← get s.seen l.atom) ∨ (← get s.levels l.atom) = 0 then
      markLits level pivot ls s unresolved others
    else
      let s ← bumpActivity (← mark s l.atom true) l.atom
      if (← get s.levels l.atom) = level then markLits level pivot ls s (unresolved + 1) others
      else markLits level pivot ls s unresolved (others.push l)

def lastSeen? (s : State) : (i : Nat) → Run (Option (Nat × Lit))
  | 0 => return none
  | i + 1 => do
    let l ← get s.trail.literals i
    if ← get s.seen l.atom then return some (i, l) else lastSeen? s i

def resolve (level : Nat) (s : State) (key : Nat) (pivot : Option Atom) (unresolved : Nat)
    (others : Array Lit) (i : Nat) : Run (Except Error (Lit × Array Lit) × State) :=
  loop (fun (s, key, pivot, unresolved, others, i) => do
    let clause ← get s.clauses key
    let (s, unresolved, others) ← markLits level pivot clause.toList s unresolved others
    if unresolved = 0 then return .inl (.error (.analysis .noAssertion), s)
    else match ← lastSeen? s i with
      | none => return .inl (.error (.analysis .emptyResolution), s)
      | some (i, l) =>
        let s ← mark s l.atom false
        if unresolved = 1 then return .inl (.ok (l.negate, others), s)
        else match ← get s.reasons l.atom with
          | none => return .inl (.error (.analysis .missingReason), s)
          | some reason => return .inr (s, reason, some l.atom, unresolved - 1, others, i))
    (s, key, pivot, unresolved, others, i)

def unmarkAll : List Lit → State → Run State
  | [], s => return s
  | l :: ls, s => do unmarkAll ls (← mark s l.atom false)

def highest (s : State) (others : Array Lit) : (count : Nat) → (i best : Nat) → Run Nat
  | 0, _, best => return best
  | count + 1, i, best => do
    let level ← get s.levels (← get others i).atom
    let greatest ← get s.levels (← get others best).atom
    highest s others count (i + 1) (if greatest < level then i else best)

def analyse (s : State) (key : Nat) : Run (Except Error Learnt × State) := do
  match ← resolve s.trail.level s key none 0 #[] s.trail.literals.size with
  | (.error e, s) => return (.error e, s)
  | (.ok (asserted, others), s) =>
    let s ← unmarkAll others.toList s
    if others.isEmpty then return (.ok ⟨asserted, others, 0⟩, s)
    else
      let others ← swap others 0 (← highest s others (others.size - 1) 1 0)
      return (.ok ⟨asserted, others, ← get s.levels (← get others 0).atom⟩, s)

def learn (s : State) (learnt : Learnt) : Run State := do
  let s ← backjump s learnt.backjumpLevel
  match learnt.others.toList with
  | [] => assign s learnt.asserted none
  | second :: rest =>
    let (key, s) ← store s learnt.asserted second rest
    assign s learnt.asserted (some key)

def restart (s : State) : Run State :=
  let (restartThreshold, luby) := nextThreshold s.settings s.luby
  let counters := { s.counters with restarts := s.counters.restarts + 1 }
  backjump { s with counters, luby, restartThreshold, conflictsSinceRestart := 0 } 0

def restartIfDue (s : State) : Run State :=
  if s.settings.restart.value && s.restartThreshold ≤ s.conflictsSinceRestart then restart s
  else return s

def resolveConflict (s : State) (key : Nat) : Run (Except Error Unit × State) := do
  match ← analyse s key with
  | (.error e, s) => return (.error e, s)
  | (.ok learnt, s) =>
    let s ← learn s learnt
    return (.ok (), ← restartIfDue s.decayActivity)

def decide (s : State) (l : Lit) : Run State := assign { s with trail := s.trail.openLevel } l none

def popUnvalued (s : State) : Run (Option Atom × State) :=
  loop (fun s => do
    match ← pop s.activity with
    | (none, activity) => return .inl (none, { s with activity })
    | (some atom, activity) =>
      let s := { s with activity }
      if (← get s.values atom).isNone then return .inl (some atom, s) else return .inr s)
    s

def anyAtom (s : State) : Run (Except Fault (Option Atom) × State) := do
  if s.unvalued.isEmpty then
    let (atom, s) ← popUnvalued s
    return (.ok atom, s)
  else match s.random.below s.unvalued.length with
    | (.error e, random) => return (.error e, { s with random })
    | (.ok i, random) =>
      let atom ← get s.unvalued.toArray i
      return (.ok (some atom), { s with random, activity := ← remove s.activity atom })

def choose (s : State) : Run (Except Fault (Option Atom) × State) := do
  let bias := s.settings.randomDecisionBias.value
  if 0 < bias then
    match s.random.chance bias with
    | (.error e, random) => return (.error e, { s with random })
    | (.ok true, random) => anyAtom { s with random }
    | (.ok false, random) =>
      let (atom, s) ← popUnvalued { s with random }
      return (.ok atom, s)
  else
    let (atom, s) ← popUnvalued s
    return (.ok atom, s)

def polarity (s : State) (atom : Atom) : Run (Except Fault Bool × State) := do
  if s.settings.phaseSaving.value then return (.ok (← get s.phases atom), s)
  else
    let (polarity, random) := s.random.chance s.settings.polarityLean.value
    return (polarity, { s with random })

def decideFreely (s : State) : Run (Except Fault Decision × State) := do
  match ← choose s with
  | (.error e, s) => return (.error e, s)
  | (.ok none, s) => return (.ok .exhausted, s)
  | (.ok (some atom), s) =>
    match ← polarity s atom with
    | (.error e, s) => return (.error e, s)
    | (.ok polarity, s) =>
      let counters := { s.counters with decisions := s.counters.decisions + 1 }
      return (.ok (.decided ⟨atom, polarity⟩), ← decide { s with counters } ⟨atom, polarity⟩)

def makeDecision (s : State) (assumptions : List Lit) : Run (Except Fault Decision × State) := do
  match assumptions[s.trail.level]? with
  | none => decideFreely s
  | some l =>
    match ← litValue? s l with
    | some true => return (.ok .satisfied, { s with trail := s.trail.openLevel })
    | some false => return (.ok .assumptionConflict, s)
    | none => return (.ok (.decided l), ← decide s l)

def search (assumptions : List Lit) (deadline : Deadline) (s : State) :
    Run (Except Error Report × State) :=
  loop (fun s => do
    match ← propagate s with
    | (some key, s) =>
      let s := s.countConflict
      if !s.trail.isDecided then return .inl (.ok .unsatisfiable, { s with refuted := true })
      else match ← resolveConflict s key with
        | (.error e, s) => return .inl (.error e, s)
        | (.ok (), s) => return .inr s
    | (none, s) =>
      let timeUp := deadline s.checks
      let s := { s with checks := s.checks + 1 }
      if timeUp then return .inl (.ok .timeUp, s)
      else match ← makeDecision s assumptions with
        | (.error e, s) => return .inl (.error (.fault e), s)
        | (.ok .assumptionConflict, s) => return .inl (.ok .assumptionConflict, s)
        | (.ok .exhausted, s) => return .inl (.ok .satisfiable, s)
        | (.ok _, s) => return .inr s)
    s

def solve (s : State) (assumptions : List Lit) (deadline : Deadline) :
    Run (Except Error Report × State) := do
  let s ← backjump s 0
  if s.refuted then return (.ok .unsatisfiable, s)
  else search assumptions deadline s

def newAtom (s : State) : Run (Atom × State) := do
  let (atom, t) := s.newAtom
  return (atom, { t with activity := ← enqueue (s.activity.put atom 0).2 atom })

def simplify (s : State) (kept : List Lit) : List Lit → Run (Option (List Lit))
  | [] => return some kept
  | l :: ls => do
    match ← litValue? s l with
    | some true => return none
    | some false => simplify s kept ls
    | none =>
      if l.negate ∈ kept then return none
      else if l ∈ kept then simplify s kept ls
      else simplify s (kept ++ [l]) ls

def addClause (s : State) (clause : List Lit) : Run State := do
  let s ← backjump s 0
  if s.refuted then return s
  else match ← simplify s [] clause with
    | none => return s
    | some [] => return { s with refuted := true }
    | some [l] =>
      match ← propagate (← assign s l none) with
      | (some _, s) => return { s with refuted := true }
      | (none, s) => return s
    | some (first :: second :: rest) => return (← store s first second rest).2

end

end Defeasible.Search.Checked
