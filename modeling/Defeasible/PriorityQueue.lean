/-! A priority queue over indices, each with a value. The values stay when an index leaves the queue,
and the place of an index in the queue is known, so its value can change while it waits. Nothing is
assumed of the comparison of values. -/

universe u

namespace Defeasible

structure PriorityQueue (V : Type u) where
  values : Array V := #[]
  places : Array (Option Nat) := #[]
  /-- The waiting indices; the children of a place `i` are at `2 * i + 1` and `2 * i + 2`. -/
  heap : Array Nat := #[]

namespace PriorityQueue

variable {V : Type u}

def count (q : PriorityQueue V) : Nat := q.values.size

def isEmpty (q : PriorityQueue V) : Bool := q.heap.isEmpty

def place? (q : PriorityQueue V) (index : Nat) : Option Nat := q.places[index]?.join

def isWaiting (q : PriorityQueue V) (index : Nat) : Bool := (q.place? index).isSome

def peek? (q : PriorityQueue V) : Option Nat := q.heap[0]?

def value? (q : PriorityQueue V) (index : Nat) : Option V := q.values[index]?

def swap (q : PriorityQueue V) (a b : Nat) : PriorityQueue V :=
  match q.heap[a]?, q.heap[b]? with
  | some i, some j =>
    { q with
      heap := (q.heap.setIfInBounds a j).setIfInBounds b i
      places := (q.places.setIfInBounds j (some a)).setIfInBounds i (some b) }
  | _, _ => q

variable [LT V] [DecidableLT V]

def above (q : PriorityQueue V) (a b : Nat) : Bool :=
  match q.heap[a]?.bind q.value?, q.heap[b]?.bind q.value? with
  | some x, some y => y < x
  | _, _ => false

def siftUp : (fuel : Nat) → PriorityQueue V → (place : Nat) → PriorityQueue V
  | 0, q, _ => q
  | fuel + 1, q, place =>
    if place = 0 then q
    else
      let parent := (place - 1) / 2
      if q.above place parent then siftUp fuel (q.swap place parent) parent else q

/-- The place of the greatest of a value and its children; an equal child does not count. -/
def greatest (q : PriorityQueue V) (place : Nat) : Nat :=
  let left := 2 * place + 1
  let right := 2 * place + 2
  let top := if q.above left place then left else place
  if q.above right top then right else top

def siftDown : (fuel : Nat) → PriorityQueue V → (place : Nat) → PriorityQueue V
  | 0, q, _ => q
  | fuel + 1, q, place =>
    let top := q.greatest place
    if top = place then q else siftDown fuel (q.swap place top) top

def up (q : PriorityQueue V) (place : Nat) : PriorityQueue V := siftUp place q place

def down (q : PriorityQueue V) (place : Nat) : PriorityQueue V := siftDown q.heap.size q place

def repair (q : PriorityQueue V) (index : Nat) : PriorityQueue V :=
  match q.place? index with
  | none => q
  | some place =>
    let q := q.up place
    match q.place? index with
    | none => q
    | some place => q.down place

def put [OfNat V 0] (q : PriorityQueue V) (index : Nat) (value : V) : Bool × PriorityQueue V :=
  if index < q.values.size then
    (false, { q with values := q.values.setIfInBounds index value }.repair index)
  else
    let more := index - q.values.size
    (true, { q with
      values := (q.values ++ Array.replicate more 0).push value
      places := q.places ++ Array.replicate (index + 1 - q.places.size) none })

def capacity : Nat := Nat.pow 2 60 - 1

def put? [OfNat V 0] (q : PriorityQueue V) (index : Nat) (value : V) : Option (Bool × PriorityQueue V) :=
  if index < capacity then some (q.put index value) else none

def enqueue (q : PriorityQueue V) (index : Nat) : Bool × PriorityQueue V :=
  if q.values.size ≤ index ∨ q.isWaiting index then (false, q)
  else
    let place := q.heap.size
    (true, { q with
      heap := q.heap.push index
      places := q.places.setIfInBounds index (some place) }.up place)

def remove (q : PriorityQueue V) (index : Nat) : Bool × PriorityQueue V :=
  match q.place? index with
  | none => (false, q)
  | some place =>
    let q := q.swap place (q.heap.size - 1)
    let q := { q with heap := q.heap.pop, places := q.places.setIfInBounds index none }
    if place < q.heap.size then
      (true, (q.down place).up place)
    else (true, q)

def pop (q : PriorityQueue V) : Option Nat × PriorityQueue V :=
  match q.peek? with
  | none => (none, q)
  | some index => (some index, (q.remove index).2)

def modify? (q : PriorityQueue V) (index : Nat) (f : V → V) : Option (PriorityQueue V) :=
  (q.value? index).map fun v =>
    { q with values := q.values.setIfInBounds index (f v) }.repair index

/-- Changes all values. The queue stays as it is, so the change should keep their order. -/
def mapValues (q : PriorityQueue V) (f : V → V) : PriorityQueue V := { q with values := q.values.map f }

end PriorityQueue

end Defeasible
