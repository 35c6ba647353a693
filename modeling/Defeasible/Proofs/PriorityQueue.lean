import Defeasible.PriorityQueue
import Mathlib.Data.List.Basic
import Mathlib.Tactic.Common

/-! What the operations of a queue do to the set of waiting indices. Nothing is said about the order of
the values, so all of it holds of a queue whose values do not compare. -/

universe u

namespace Defeasible.PriorityQueue

variable {V : Type u}

structure Linked (q : PriorityQueue V) : Prop where
  size_places : q.places.size = q.values.size
  heap_iff : ∀ place index, q.heap[place]? = some index ↔ q.place? index = some place

theorem Linked.isWaiting_iff {q : PriorityQueue V} (h : q.Linked) (index : Nat) :
    q.isWaiting index = true ↔ ∃ place : Nat, q.heap[place]? = some index := by
  simp only [isWaiting, Option.isSome_iff_exists, h.heap_iff]

theorem Linked.lt_of_isWaiting {q : PriorityQueue V} (h : q.Linked) {index : Nat}
    (hw : q.isWaiting index = true) : index < q.values.size := by
  rw [← h.size_places]
  by_contra hge
  have : q.places[index]? = none := Array.getElem?_eq_none (by omega)
  simp [isWaiting, place?, this] at hw

structure Rearranged (q q' : PriorityQueue V) : Prop where
  linked : q'.Linked
  size_values : q'.values.size = q.values.size
  size_heap : q'.heap.size = q.heap.size
  isWaiting : ∀ index, q'.isWaiting index = q.isWaiting index

theorem Rearranged.refl {q : PriorityQueue V} (h : q.Linked) : Rearranged q q :=
  ⟨h, rfl, rfl, fun _ => rfl⟩

theorem Rearranged.trans {q q' q'' : PriorityQueue V} (h : Rearranged q q') (h' : Rearranged q' q'') :
    Rearranged q q'' :=
  ⟨h'.linked, h'.size_values.trans h.size_values, h'.size_heap.trans h.size_heap,
    fun i => (h'.isWaiting i).trans (h.isWaiting i)⟩

theorem Linked.swap {q : PriorityQueue V} (h : q.Linked) (a b : Nat) : Rearranged q (q.swap a b) := by
  unfold PriorityQueue.swap
  split
  · next i j hi hj =>
    have hpi := (h.heap_iff a i).1 hi
    have hpj := (h.heap_iff b j).1 hj
    have hai : a < q.heap.size := (Array.getElem?_eq_some_iff.1 hi).1
    have hbj : b < q.heap.size := (Array.getElem?_eq_some_iff.1 hj).1
    have hil : i < q.places.size := by
      by_contra hge
      simp [place?, Array.getElem?_eq_none (Nat.le_of_not_lt hge)] at hpi
    have hjl : j < q.places.size := by
      by_contra hge
      simp [place?, Array.getElem?_eq_none (Nat.le_of_not_lt hge)] at hpj
    have hplace (x : Nat) : ((q.places.setIfInBounds j (some a)).setIfInBounds i (some b))[x]?.join =
        if x = i then some b else if x = j then some a else q.place? x := by
      simp only [Array.getElem?_setIfInBounds, Array.size_setIfInBounds, place?]
      grind
    have hheap (p : Nat) : ((q.heap.setIfInBounds a j).setIfInBounds b i)[p]? =
        if p = b then some i else if p = a then some j else q.heap[p]? := by
      simp only [Array.getElem?_setIfInBounds, Array.size_setIfInBounds]
      grind
    refine ⟨⟨by simpa using h.size_places, fun p x => ?_⟩, rfl, by simp, fun x => ?_⟩
    · simp only [place?, hheap, hplace]
      have := h.heap_iff p x
      have := h.heap_iff a x
      have := h.heap_iff b x
      grind
    · simp only [isWaiting, place?, hplace]
      grind [place?]
  · exact .refl h

structure Gains (q : PriorityQueue V) (index : Nat) (q' : PriorityQueue V) : Prop where
  linked : q'.Linked
  size_values : q'.values.size = q.values.size
  isWaiting_iff : ∀ j, q'.isWaiting j = true ↔ j = index ∨ q.isWaiting j = true

structure Loses (q : PriorityQueue V) (index : Nat) (q' : PriorityQueue V) : Prop where
  linked : q'.Linked
  size_values : q'.values.size = q.values.size
  size_heap : q'.heap.size + 1 = q.heap.size
  isWaiting_iff : ∀ j, q'.isWaiting j = true ↔ j ≠ index ∧ q.isWaiting j = true

theorem Gains.rearrange {q q' q'' : PriorityQueue V} {index : Nat} (h : Gains q index q')
    (r : Rearranged q' q'') : Gains q index q'' :=
  ⟨r.linked, r.size_values.trans h.size_values, fun j => by rw [r.isWaiting, h.isWaiting_iff]⟩

theorem Loses.rearrange {q q' q'' : PriorityQueue V} {index : Nat} (h : Loses q index q')
    (r : Rearranged q' q'') : Loses q index q'' :=
  ⟨r.linked, r.size_values.trans h.size_values, by rw [r.size_heap, h.size_heap],
    fun j => by rw [r.isWaiting, h.isWaiting_iff]⟩

theorem Loses.of_rearranged {q q' q'' : PriorityQueue V} {index : Nat} (r : Rearranged q q')
    (h : Loses q' index q'') : Loses q index q'' :=
  ⟨h.linked, h.size_values.trans r.size_values, by rw [h.size_heap, r.size_heap],
    fun j => by rw [h.isWaiting_iff, r.isWaiting]⟩

theorem Linked.push {q : PriorityQueue V} (h : q.Linked) {index : Nat} (known : index < q.values.size)
    (out : q.isWaiting index = false) :
    Gains q index { q with
      heap := q.heap.push index
      places := q.places.setIfInBounds index (some q.heap.size) } := by
  have hlt : index < q.places.size := by rw [h.size_places]; exact known
  have hplace (x : Nat) : (q.places.setIfInBounds index (some q.heap.size))[x]?.join =
      if x = index then some q.heap.size else q.place? x := by
    simp only [Array.getElem?_setIfInBounds, place?]
    grind
  have hfree (p : Nat) : q.heap[p]? ≠ some index := fun hp => by
    have := (h.isWaiting_iff index).2 ⟨p, hp⟩
    simp [out] at this
  refine ⟨⟨by simpa using h.size_places, fun p x => ?_⟩, rfl, fun x => ?_⟩
  · simp only [place?, hplace, Array.getElem?_push]
    have := h.heap_iff p x
    have := h.heap_iff q.heap.size x
    have := hfree p
    grind
  · simp only [isWaiting, place?, hplace]
    grind [place?]

theorem Linked.pop_last {q : PriorityQueue V} (h : q.Linked) {index : Nat}
    (last : q.heap[q.heap.size - 1]? = some index) :
    Loses q index { q with heap := q.heap.pop, places := q.places.setIfInBounds index none } := by
  have hpos : 0 < q.heap.size := by
    have := (Array.getElem?_eq_some_iff.1 last).1
    omega
  have hlt : index < q.places.size := by
    rw [h.size_places]
    exact h.lt_of_isWaiting ((h.isWaiting_iff index).2 ⟨_, last⟩)
  have hplace (x : Nat) : (q.places.setIfInBounds index none)[x]?.join =
      if x = index then none else q.place? x := by
    simp only [Array.getElem?_setIfInBounds, place?]
    grind
  refine ⟨⟨by simpa using h.size_places, fun p x => ?_⟩, rfl, by simp; omega, fun x => ?_⟩
  · simp only [place?, hplace, Array.getElem?_pop]
    have := h.heap_iff p x
    have := (h.heap_iff (q.heap.size - 1) x)
    have := (h.heap_iff p index)
    have := (h.heap_iff (q.heap.size - 1) index)
    grind
  · simp only [isWaiting, place?, hplace]
    grind [place?]

theorem Linked.withValues {q : PriorityQueue V} (h : q.Linked) (values : Array V)
    (size : values.size = q.values.size) : Rearranged q { q with values } :=
  ⟨⟨h.size_places.trans size.symm, h.heap_iff⟩, size, rfl, fun _ => rfl⟩

theorem Linked.mapValues {q : PriorityQueue V} (h : q.Linked) (f : V → V) :
    Rearranged q (q.mapValues f) :=
  h.withValues _ (by simp)

section Order

variable [LT V] [DecidableLT V]

theorem Linked.siftUp {q : PriorityQueue V} (h : q.Linked) (fuel place : Nat) :
    Rearranged q (siftUp fuel q place) := by
  induction fuel generalizing q place with
  | zero => exact .refl h
  | succ fuel ih =>
    simp only [PriorityQueue.siftUp]
    split
    · exact .refl h
    · split
      · exact (h.swap _ _).trans (ih (h.swap _ _).linked _)
      · exact .refl h

theorem Linked.siftDown {q : PriorityQueue V} (h : q.Linked) (fuel place : Nat) :
    Rearranged q (siftDown fuel q place) := by
  induction fuel generalizing q place with
  | zero => exact .refl h
  | succ fuel ih =>
    simp only [PriorityQueue.siftDown]
    split
    · exact .refl h
    · exact (h.swap _ _).trans (ih (h.swap _ _).linked _)

theorem Linked.up {q : PriorityQueue V} (h : q.Linked) (place : Nat) : Rearranged q (q.up place) :=
  h.siftUp _ _

theorem Linked.down {q : PriorityQueue V} (h : q.Linked) (place : Nat) : Rearranged q (q.down place) :=
  h.siftDown _ _

theorem Linked.repair {q : PriorityQueue V} (h : q.Linked) (index : Nat) :
    Rearranged q (q.repair index) := by
  unfold PriorityQueue.repair
  split
  · exact .refl h
  · next place _ =>
    have up := h.up place
    dsimp only
    split
    · exact up
    · exact up.trans (up.linked.down _)

theorem Linked.modify? {q : PriorityQueue V} (h : q.Linked) (index : Nat) (f : V → V) :
    Rearranged q ((q.modify? index f).getD q) := by
  unfold PriorityQueue.modify?
  cases q.value? index with
  | none => exact .refl h
  | some v =>
    have set := h.withValues (q.values.setIfInBounds index (f v)) (by simp)
    exact set.trans (set.linked.repair index)

theorem Linked.enqueue {q : PriorityQueue V} (h : q.Linked) {index : Nat}
    (known : index < q.values.size) : Gains q index (q.enqueue index).2 := by
  unfold PriorityQueue.enqueue
  split
  · next hw =>
    have hw : q.isWaiting index = true := by simpa [Nat.not_le.2 known] using hw
    exact ⟨h, rfl, fun j => by grind⟩
  · next hn =>
    have out : q.isWaiting index = false := by simpa using (not_or.1 hn).2
    have gains := h.push known out
    exact gains.rearrange (gains.linked.up _)

theorem Linked.remove {q : PriorityQueue V} (h : q.Linked) {index : Nat}
    (waits : q.isWaiting index = true) : Loses q index (q.remove index).2 := by
  unfold PriorityQueue.remove
  split
  · next hn => simp [isWaiting, hn] at waits
  · next place hp =>
    have hplace := (h.heap_iff place index).2 hp
    have hlt : place < q.heap.size := (Array.getElem?_eq_some_iff.1 hplace).1
    have swapped := h.swap place (q.heap.size - 1)
    have last : (q.swap place (q.heap.size - 1)).heap[(q.swap place (q.heap.size - 1)).heap.size - 1]? =
        some index := by
      rw [swapped.size_heap]
      obtain ⟨x, hx⟩ : ∃ x, q.heap[q.heap.size - 1]? = some x :=
        ⟨_, Array.getElem?_eq_getElem (by omega)⟩
      simp only [PriorityQueue.swap, hplace, hx, Array.getElem?_setIfInBounds, Array.size_setIfInBounds]
      grind
    have loses := Loses.of_rearranged swapped (swapped.linked.pop_last last)
    dsimp only
    split
    · have down := loses.linked.down place
      exact loses.rearrange (down.trans (down.linked.up place))
    · exact loses

theorem pop_eq_none {q : PriorityQueue V} (h : q.Linked) (none : q.pop.1 = none) (index : Nat) :
    q.isWaiting index = false := by
  by_contra hw
  obtain ⟨p, hp⟩ := (h.isWaiting_iff index).1 (by simpa using hw)
  have hlt : p < q.heap.size := (Array.getElem?_eq_some_iff.1 hp).1
  have top : q.heap[0]? = some q.heap[0] := Array.getElem?_eq_getElem (by omega)
  simp [PriorityQueue.pop, peek?, top] at none

theorem Linked.pop {q : PriorityQueue V} (h : q.Linked) {index : Nat} (top : q.pop.1 = some index) :
    q.isWaiting index = true ∧ Loses q index q.pop.2 := by
  unfold PriorityQueue.pop peek? at top ⊢
  split at top
  · cases top
  · next i hi =>
    obtain rfl : i = index := by simpa using top
    have waits := (h.isWaiting_iff i).2 ⟨0, hi⟩
    exact ⟨waits, h.remove waits⟩

theorem Linked.put_new [OfNat V 0] {q : PriorityQueue V} (h : q.Linked) {index : Nat} (value : V)
    (new : q.values.size ≤ index) :
    (q.put index value).2.Linked ∧ (q.put index value).2.values.size = index + 1 ∧
      ∀ j, (q.put index value).2.isWaiting j = q.isWaiting j := by
  unfold PriorityQueue.put
  rw [if_neg (by omega)]
  have hplaces (x : Nat) :
      (q.places ++ Array.replicate (index + 1 - q.places.size) none)[x]?.join = q.place? x := by
    rw [Array.getElem?_append, place?]
    split
    · rfl
    · next hx => rw [Array.getElem?_eq_none (Nat.le_of_not_lt hx)]; grind
  refine ⟨⟨?_, fun p x => ?_⟩, ?_, fun x => ?_⟩
  · simp only [Array.size_append, Array.size_replicate, Array.size_push, h.size_places]
    omega
  · simp only [place?, hplaces, h.heap_iff]
  · simp only [Array.size_push, Array.size_append, Array.size_replicate]
    omega
  · simp only [isWaiting, place?, hplaces]

end Order

end Defeasible.PriorityQueue
