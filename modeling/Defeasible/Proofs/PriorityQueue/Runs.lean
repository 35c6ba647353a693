import Defeasible.Proofs.PriorityQueue.Order
import Mathlib.Data.List.Nodup

/-! Runs of operations on a queue that starts empty. The places of the waiting indices are always known; and if the
values are totally ordered, the greatest waits at the top, and taking out the top again and again sorts the rest. -/

universe u

namespace Defeasible.PriorityQueue

inductive Operation (V : Type u)
  | put (index : Nat) (value : V)
  | enqueue (index : Nat)
  | remove (index : Nat)
  | pop
  | modify (index : Nat) (f : V → V)
  | mapValues (f : V → V)

section Run

variable {V : Type u} {q q' : PriorityQueue V} {index : Nat}

/-- An index waits just where it is in the heap, and then it is there once, at the place that is known for it. -/
structure Mirrored (q : PriorityQueue V) : Prop where
  size_places : q.places.size = q.count
  place_iff : ∀ place index, q.heap[place]? = some index ↔ q.place? index = some place
  waits_iff : ∀ index, q.isWaiting index = true ↔ index ∈ q.heap
  once : ∀ index ∈ q.heap, q.heap.count index = 1
  known : ∀ index ∈ q.heap, index < q.count

theorem Linked.mirrored (h : q.Linked) : q.Mirrored where
  size_places := h.size_places
  place_iff := h.heap_iff
  waits_iff index := by rw [h.isWaiting_iff, Array.mem_iff_getElem?]
  once index mem := by
    have nodup : q.heap.toList.Nodup := by
      refine List.nodup_iff_injective_get.2 fun i j same => Fin.ext ?_
      have at_place (k : Fin q.heap.toList.length) : q.place? (q.heap.toList.get k) = some k.1 :=
        (h.heap_iff k _).1 (by simp)
      exact Option.some.inj ((at_place i).symm.trans (same ▸ at_place j))
    rw [← Array.count_toList]
    exact List.count_eq_one_of_mem nodup (Array.mem_toList_iff.2 mem)
  known index mem := by
    obtain ⟨place, at_place⟩ := Array.mem_iff_getElem?.1 mem
    exact h.lt_of_isWaiting ((h.isWaiting_iff index).2 ⟨place, at_place⟩)

theorem linked_empty : ({} : PriorityQueue V).Linked := ⟨rfl, fun place index => by simp [place?]⟩

variable [LT V] [DecidableLT V]

theorem Linked.linked_enqueue (h : q.Linked) (index : Nat) : (q.enqueue index).2.Linked := by
  by_cases known : index < q.values.size
  · exact (h.enqueue known).linked
  · rw [PriorityQueue.enqueue, if_pos (.inl (Nat.le_of_not_lt known))]
    exact h

theorem Linked.linked_remove (h : q.Linked) (index : Nat) : (q.remove index).2.Linked := by
  cases waits : q.place? index with
  | some place => exact (h.remove (by rw [isWaiting, waits]; rfl)).linked
  | none =>
    rw [PriorityQueue.remove, waits]
    exact h

theorem pop_fst (q : PriorityQueue V) : q.pop.1 = q.peek? := by
  rw [PriorityQueue.pop]
  split
  · next none => exact none.symm
  · next some => exact some.symm

theorem pop_snd (q : PriorityQueue V) (top : q.peek? = some index) : q.pop.2 = (q.remove index).2 := by
  rw [PriorityQueue.pop, top]

theorem pop_snd_of_none (q : PriorityQueue V) (empty : q.peek? = none) : q.pop.2 = q := by
  rw [PriorityQueue.pop, empty]

variable [OfNat V 0]

def perform (q : PriorityQueue V) : Operation V → Option (PriorityQueue V)
  | .put index value => some (q.put index value).2
  | .enqueue index => some (q.enqueue index).2
  | .remove index => some (q.remove index).2
  | .pop => some q.pop.2
  | .modify index f => q.modify? index f
  | .mapValues f => some (q.mapValues f)

def run (q : PriorityQueue V) : List (Operation V) → Option (PriorityQueue V)
  | [] => some q
  | op :: ops => (q.perform op).bind fun q => run q ops

theorem run_induction {P : PriorityQueue V → Prop} {ops : List (Operation V)} {q q' : PriorityQueue V} (start : P q)
    (keeps : ∀ op ∈ ops, ∀ q q', P q → q.perform op = some q' → P q') (ran : run q ops = some q') : P q' := by
  induction ops generalizing q with
  | nil =>
    cases ran
    exact start
  | cons op ops ih =>
    obtain ⟨next, performed, ran⟩ := Option.bind_eq_some_iff.1 ran
    exact ih (keeps op List.mem_cons_self q next start performed)
      (fun op mem => keeps op (List.mem_cons_of_mem _ mem)) ran

theorem Linked.put (h : q.Linked) (index : Nat) (value : V) : (q.put index value).2.Linked := by
  by_cases known : index < q.values.size
  · have set := h.withValues (q.values.setIfInBounds index value) (by simp)
    rw [PriorityQueue.put, if_pos known]
    exact (set.linked.repair index).linked
  · exact (h.put_new value (Nat.le_of_not_lt known)).1

theorem Linked.perform (h : q.Linked) (op : Operation V) (performed : q.perform op = some q') : q'.Linked := by
  cases op with
  | put index value =>
    cases performed
    exact h.put index value
  | enqueue index =>
    cases performed
    exact h.linked_enqueue index
  | remove index =>
    cases performed
    exact h.linked_remove index
  | pop =>
    cases performed
    cases top : q.peek? with
    | none => rwa [pop_snd_of_none q top]
    | some index =>
      rw [pop_snd q top]
      exact h.linked_remove index
  | modify index f =>
    have changed := h.modify? index f
    rw [show q.modify? index f = some q' from performed] at changed
    exact changed.linked
  | mapValues f =>
    cases performed
    exact (h.mapValues f).linked

end Run

/-! ### Taking out the top -/

section Top

variable {V : Type u} [LinearOrder V] {q : PriorityQueue V} {index : Nat}

def NoMore (q : PriorityQueue V) (i j : Nat) : Prop := ∃ v w, q.value? i = some v ∧ q.value? j = some w ∧ v ≤ w

structure Greatest (q : PriorityQueue V) (index : Nat) : Prop where
  waits : q.isWaiting index = true
  noMore : ∀ i, q.isWaiting i = true → q.NoMore i index

/-- Which indices come out when the top is taken out until nothing waits. -/
inductive Drains : PriorityQueue V → List Nat → Prop
  | empty {q : PriorityQueue V} (none : q.pop.1 = none) : Drains q []
  | pop {q : PriorityQueue V} {index : Nat} {rest : List Nat} (top : q.pop.1 = some index)
      (drains : Drains q.pop.2 rest) : Drains q (index :: rest)

theorem Linked.noMore_iff (h : q.Linked) {p r i j : Nat} (at_p : q.heap[p]? = some i) (at_r : q.heap[r]? = some j) :
    q.NoMore i j ↔ q.rank p ≤ q.rank r := by
  obtain ⟨v, value⟩ := h.exists_value at_p
  obtain ⟨w, value'⟩ := h.exists_value at_r
  rw [rank_eq at_p value, rank_eq at_r value', WithBot.coe_le_coe]
  constructor
  · rintro ⟨v', w', found, found', le⟩
    rwa [← Option.some.inj (found.symm.trans value), ← Option.some.inj (found'.symm.trans value')]
  · exact fun le => ⟨v, w, value, value', le⟩

theorem Ordered.le_top (o : q.Ordered) (place : Nat) : q.rank place ≤ q.rank 0 := by
  induction place using Nat.strongRecOn with
  | ind place ih =>
    rcases Nat.eq_zero_or_pos place with rfl | pos
    · exact le_rfl
    · exact (o place pos).trans (ih _ (parent_lt pos))

theorem Linked.greatest (h : q.Linked) (o : q.Ordered) (top : q.peek? = some index) : q.Greatest index where
  waits := (h.isWaiting_iff index).2 ⟨0, top⟩
  noMore i waits := by
    obtain ⟨place, at_place⟩ := (h.isWaiting_iff i).1 waits
    exact (h.noMore_iff at_place top).2 (o.le_top place)

theorem Linked.ordered_pop (h : q.Linked) (o : q.Ordered) : q.pop.2.Ordered := by
  cases top : q.peek? with
  | none => rwa [pop_snd_of_none q top]
  | some index =>
    rw [pop_snd q top]
    exact h.ordered_remove o index

theorem Linked.ordered_perform [OfNat V 0] {q' : PriorityQueue V} (h : q.Linked) (o : q.Ordered) (op : Operation V)
    (monotone : ∀ f, op = .mapValues f → Monotone f) (performed : q.perform op = some q') : q'.Ordered := by
  cases op with
  | put index value =>
    cases performed
    exact h.ordered_put o index value
  | enqueue index =>
    cases performed
    exact h.ordered_enqueue o index
  | remove index =>
    cases performed
    exact h.ordered_remove o index
  | pop =>
    cases performed
    exact h.ordered_pop o
  | modify index f => exact h.ordered_modify? o performed
  | mapValues f =>
    cases performed
    exact o.mapValues (monotone f rfl)

theorem ordered_empty : ({} : PriorityQueue V).Ordered := fun c _ => by
  rw [rank_eq_bot_of_le (Nat.zero_le c)]
  exact bot_le

theorem Linked.exists_drains (h : q.Linked) (o : q.Ordered) :
    ∃ indices, q.Drains indices ∧ indices.Nodup ∧ (∀ i, i ∈ indices ↔ q.isWaiting i = true) ∧
      indices.Pairwise fun i j => q.NoMore j i := by
  induction size : q.heap.size generalizing q with
  | zero =>
    have none : q.pop.1 = none := by
      rw [pop_fst, peek?, Array.getElem?_eq_none (Nat.le_of_eq size)]
    refine ⟨[], .empty none, List.nodup_nil, fun i => ?_, .nil⟩
    rw [pop_eq_none h none i]
    simp
  | succ n ih =>
    obtain ⟨index, top⟩ : ∃ index, q.peek? = some index := ⟨_, Array.getElem?_eq_getElem (by omega)⟩
    have popped : q.pop.1 = some index := (pop_fst q).trans top
    obtain ⟨-, loses⟩ := h.pop popped
    have greatest := h.greatest o top
    have values (i j : Nat) : q.pop.2.NoMore i j ↔ q.NoMore i j := by
      rw [NoMore, NoMore, value?, value?, values_pop]
      rfl
    obtain ⟨rest, drains, nodup, mem_iff, falling⟩ := ih loses.linked (h.ordered_pop o) (by
      have := loses.size_heap
      omega)
    have others (i : Nat) : i ∈ rest ↔ i ≠ index ∧ q.isWaiting i = true := (mem_iff i).trans (loses.isWaiting_iff i)
    refine ⟨index :: rest, .pop popped drains, List.nodup_cons.2 ⟨fun mem => ((others index).1 mem).1 rfl, nodup⟩,
      fun i => ?_, List.pairwise_cons.2 ⟨fun i mem => greatest.noMore i ((others i).1 mem).2, ?_⟩⟩
    · rw [List.mem_cons, others]
      constructor
      · rintro (rfl | ⟨-, waits⟩)
        · exact greatest.waits
        · exact waits
      · exact fun waits => or_iff_not_imp_left.2 fun ne => ⟨ne, waits⟩
    · exact falling.imp fun {i j} => (values j i).1

end Top

/-- After any operations on an empty queue, the heap and the known places agree, whatever the comparison of values is.
Where it is a total order and no change of all values disturbs it, each value is no more than that of its parent, the
top is a greatest one, and taking out the top until nothing waits gives every waiting index once, in falling order of
the values. -/
theorem pops_greatest :
    (∀ (V : Type u) [OfNat V 0] [LT V] [DecidableLT V] (ops : List (Operation V)) (q : PriorityQueue V),
      run {} ops = some q → q.Mirrored) ∧
    ∀ (V : Type u) [OfNat V 0] [LinearOrder V] (ops : List (Operation V)) (q : PriorityQueue V),
      (∀ f, .mapValues f ∈ ops → Monotone f) → run {} ops = some q →
      (∀ place child i j : Nat, child = 2 * place + 1 ∨ child = 2 * place + 2 → q.heap[place]? = some i →
        q.heap[child]? = some j → q.NoMore j i) ∧
      q.pop.1 = q.peek? ∧ (∀ index, q.peek? = some index → q.Greatest index) ∧
      (q.peek? = none ↔ ∀ index, q.isWaiting index = false) ∧
      ∃ indices, q.Drains indices ∧ indices.Nodup ∧ (∀ i, i ∈ indices ↔ q.isWaiting i = true) ∧
        indices.Pairwise fun i j => q.NoMore j i := by
  refine ⟨fun V _ _ _ ops q ran => ?_, fun V _ _ ops q monotone ran => ?_⟩
  · exact (run_induction linked_empty (fun op _ _ _ h => h.perform op) ran).mirrored
  · have kept : q.Linked ∧ q.Ordered := by
      refine run_induction (P := fun q => q.Linked ∧ q.Ordered) ⟨linked_empty, ordered_empty⟩ ?_ ran
      exact fun op mem _ _ ⟨h, o⟩ performed =>
        ⟨h.perform op performed, h.ordered_perform o op (fun f same => monotone f (same ▸ mem)) performed⟩
    obtain ⟨h, o⟩ := kept
    refine ⟨fun place child i j below at_place at_child => ?_, pop_fst q, fun index => h.greatest o, ?_,
      h.exists_drains o⟩
    · have pos : 0 < child := by omega
      have le := o child pos
      rw [(parent_eq_iff pos).2 below] at le
      exact (h.noMore_iff at_child at_place).2 le
    · constructor
      · exact fun none => pop_eq_none h ((pop_fst q).trans none)
      · intro idle
        by_contra some
        obtain ⟨index, top⟩ := Option.ne_none_iff_exists'.1 some
        have waits := (h.greatest o top).waits
        rw [idle index] at waits
        cases waits

def rescaled : List (Operation Nat) :=
  [.put 6 10, .put 5 20, .put 4 31, .put 1 60, .put 0 30, .enqueue 6, .enqueue 5, .enqueue 4, .enqueue 1, .enqueue 0,
    .modify 6 (· + 90), .put 1 0, .remove 5, .mapValues (· / 2)]

def incomparable : List (Operation Float) :=
  [.put 3 (0 / 0), .put 2 1, .put 1 2, .enqueue 3, .enqueue 2, .enqueue 1, .modify 3 (· + 1), .remove 2, .enqueue 2]

theorem pops_greatest_rescaled :
    (∃ q, run {} incomparable = some q ∧ q.heap = #[3, 1, 2] ∧ q.Mirrored) ∧
    (∀ f, .mapValues f ∈ rescaled → Monotone f) ∧
    ∃ q, run {} rescaled = some q ∧ q.heap = #[6, 4, 0, 1] ∧ q.values.toList = [15, 0, 0, 0, 15, 10, 50] ∧
      q.Greatest 6 ∧ ∃ indices, q.Drains indices ∧ indices.Nodup ∧ (∀ i, i ∈ indices ↔ q.isWaiting i = true) ∧
        indices.Pairwise fun i j => q.NoMore j i := by
  refine ⟨?_, ?_⟩
  · have heap : (run {} incomparable).map (·.heap) = some #[3, 1, 2] := by decide +kernel
    obtain ⟨q, ran, heap⟩ := Option.map_eq_some_iff.1 heap
    exact ⟨q, ran, heap, pops_greatest.1 Float incomparable q ran⟩
  · have monotone : ∀ f, .mapValues f ∈ rescaled → Monotone f := by
      intro f mem
      obtain rfl : f = (· / 2) := by simpa [rescaled] using mem
      exact fun _ _ le => Nat.div_le_div_right le
    have found : (run {} rescaled).map (fun q => (q.heap, q.values.toList, q.peek?)) =
        some (#[6, 4, 0, 1], [15, 0, 0, 0, 15, 10, 50], some 6) := by decide +kernel
    obtain ⟨q, ran, found⟩ := Option.map_eq_some_iff.1 found
    simp only [Prod.mk.injEq] at found
    obtain ⟨heap, values, top⟩ := found
    obtain ⟨-, -, greatest, -, drains⟩ := pops_greatest.2 Nat rescaled q monotone ran
    exact ⟨monotone, q, ran, heap, values, greatest 6 top, drains⟩

end Defeasible.PriorityQueue
