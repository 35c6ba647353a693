import Defeasible.Search.Checked
import Defeasible.Proofs.Search.Learning

/-! The checks never fail on a coherent state, and its queue is never sifted without end. -/

namespace Defeasible.Search.Checked

open State

section Loop

variable {σ α : Type} {step : σ → Run (α ⊕ σ)} {s : σ} {count : Nat} {r : Except Fault α}

theorem rounds_succ (h : rounds step count s = some r) : rounds step (count + 1) s = some r := by
  induction count generalizing s with
  | zero => cases h
  | succ count ih =>
    rw [rounds] at h ⊢
    rcases hs : step s with - | e | a | s'
    · rw [hs] at h
      cases h
    · rw [hs] at h
      exact h
    · rw [hs] at h
      exact h
    · rw [hs] at h
      exact ih h

theorem rounds_le {count' : Nat} (h : rounds step count s = some r) (le : count ≤ count') :
    rounds step count' s = some r := by
  induction le with
  | refl => exact h
  | step _ ih => exact rounds_succ ih

theorem loop_of_rounds (h : rounds step count s = some r) : loop step s = some r := by
  have ends : ∃ count, rounds step count s ≠ ExceptT.mk none := ⟨count, by rw [h]; exact nofun⟩
  rw [loop, dif_pos ends]
  obtain ⟨r', hr'⟩ := Option.ne_none_iff_exists'.1 ends.choose_spec
  have h₁ := rounds_le h (Nat.le_max_left count ends.choose)
  have h₂ := rounds_le hr' (Nat.le_max_right count ends.choose)
  exact hr'.trans (h₂.symm.trans h₁)

theorem loop_of_not_rounds (h : ∀ count, rounds step count s = none) : loop step s = none := by
  rw [loop, dif_neg]
  · rfl
  · rintro ⟨count, hc⟩
    exact hc (h count)

theorem loop_eq (step : σ → Run (α ⊕ σ)) (s : σ) :
    loop step s = step s >>= Sum.elim pure (loop step) := by
  rcases hs : step s with - | e | a | s'
  · apply loop_of_not_rounds
    intro count
    cases count with
    | zero => rfl
    | succ count => rw [rounds, hs]; rfl
  · have first : rounds step 1 s = some (.error e) := by rw [rounds, hs]; rfl
    exact loop_of_rounds first
  · have first : rounds step 1 s = some (.ok a) := by rw [rounds, hs]; rfl
    exact loop_of_rounds first
  · have shift (count : Nat) : rounds step (count + 1) s = rounds step count s' := by
      rw [rounds, hs]
      rfl
    change loop step s = loop step s'
    by_cases ends : ∃ count r, rounds step count s' = some r
    · obtain ⟨count, r, hr⟩ := ends
      rw [loop_of_rounds hr, loop_of_rounds ((shift count).trans hr)]
    · have never (count : Nat) : rounds step count s' = none :=
        Option.eq_none_iff_forall_ne_some.2 fun r hr => ends ⟨count, r, hr⟩
      rw [loop_of_not_rounds never, loop_of_not_rounds]
      intro count
      cases count with
      | zero => rfl
      | succ count => rw [shift, never]

end Loop
section Access

variable {α : Type} {xs : Array α} {i j : Nat}

theorem get_eq {x : α} (h : xs[i]? = some x) : get xs i = pure x := by
  simp only [get, h]

theorem get_eq_getD (h : i < xs.size) (d : α) : get xs i = pure (xs.getD i d) := by
  rw [get_eq (Array.getElem?_eq_getElem h)]
  simp [h]

theorem set_eq (h : i < xs.size) (x : α) : set xs i x = pure (xs.setIfInBounds i x) := by
  rw [set, if_pos h]

theorem swap_eq (hi : i < xs.size) (hj : j < xs.size) : swap xs i j = pure (xs.swapIfInBounds i j) := by
  rw [swap, if_pos ⟨hi, hj⟩]

end Access

section Queue

variable {V : Type}

theorem size_heap_swap (q : PriorityQueue V) (a b : Nat) : (q.swap a b).heap.size = q.heap.size := by
  unfold PriorityQueue.swap
  split
  · simp
  · rfl

variable [LT V] [DecidableLT V]

theorem siftUp_eq (fuel : Nat) (q : PriorityQueue V) (place : Nat) (bound : place ≤ fuel) :
    siftUp q place = pure (PriorityQueue.siftUp fuel q place) := by
  induction fuel generalizing q place with
  | zero =>
    obtain rfl := Nat.le_zero.1 bound
    rw [siftUp, loop_eq]
    rfl
  | succ fuel ih =>
    rw [siftUp, loop_eq, PriorityQueue.siftUp]
    dsimp only
    split
    · rfl
    · split
      · exact ih _ _ (by omega)
      · rfl

theorem lt_of_above {q : PriorityQueue V} {a b : Nat} (h : q.above a b = true) : a < q.heap.size := by
  by_contra hge
  simp [PriorityQueue.above, Array.getElem?_eq_none (Nat.not_lt.1 hge)] at h

theorem greatest_spec (q : PriorityQueue V) (place : Nat) :
    q.greatest place = place ∨ place < q.greatest place ∧ q.greatest place < q.heap.size := by
  unfold PriorityQueue.greatest
  dsimp only
  generalize htop : (if q.above (2 * place + 1) place then 2 * place + 1 else place) = top
  have left : top = place ∨ place < top ∧ top < q.heap.size := by
    subst htop
    split
    · next left =>
      have := lt_of_above left
      omega
    · exact .inl rfl
  split
  · next right =>
    have := lt_of_above right
    omega
  · exact left

theorem siftDown_eq (fuel : Nat) (q : PriorityQueue V) (place : Nat)
    (bound : q.heap.size ≤ place + fuel) :
    siftDown q place = pure (PriorityQueue.siftDown fuel q place) := by
  induction fuel generalizing q place with
  | zero =>
    have := (greatest_spec q place).resolve_right (by omega)
    rw [siftDown, loop_eq, PriorityQueue.siftDown]
    dsimp only
    rw [if_pos this]
    rfl
  | succ fuel ih =>
    have spec := greatest_spec q place
    rw [siftDown, loop_eq, PriorityQueue.siftDown]
    dsimp only
    split
    · rfl
    · exact ih _ _ (by rw [size_heap_swap]; omega)

theorem up_eq (q : PriorityQueue V) (place : Nat) : siftUp q place = pure (q.up place) :=
  siftUp_eq _ _ _ (Nat.le_refl _)

theorem down_eq (q : PriorityQueue V) (place : Nat) : siftDown q place = pure (q.down place) :=
  siftDown_eq _ _ _ (by omega)

theorem repair_eq (q : PriorityQueue V) (index : Nat) : repair q index = pure (q.repair index) := by
  cases hplace : q.place? index with
  | none => simp only [repair, PriorityQueue.repair, hplace]
  | some place =>
    simp only [repair, PriorityQueue.repair, hplace, up_eq, pure_bind]
    cases (q.up place).place? index with
    | none => rfl
    | some place' => exact down_eq _ _

theorem modify_eq {q : PriorityQueue V} {index : Nat} (h : index < q.values.size) (f : V → V) :
    modify q index f = pure ((q.modify? index f).getD q) := by
  have hget := Array.getElem?_eq_getElem h
  rw [modify, get_eq hget, pure_bind, repair_eq, PriorityQueue.modify?, PriorityQueue.value?, hget]
  rfl

theorem enqueue_eq (q : PriorityQueue V) (index : Nat) :
    enqueue q index = pure (q.enqueue index).2 := by
  by_cases out : q.values.size ≤ index ∨ q.isWaiting index = true
  · simp only [enqueue, PriorityQueue.enqueue, if_pos out]
  · simp only [enqueue, PriorityQueue.enqueue, if_neg out, up_eq]

theorem remove_eq (q : PriorityQueue V) (index : Nat) : remove q index = pure (q.remove index).2 := by
  cases hplace : q.place? index with
  | none => simp only [remove, PriorityQueue.remove, hplace]
  | some place =>
    simp only [remove, PriorityQueue.remove, hplace, down_eq, up_eq, pure_bind]
    split <;> rfl

theorem pop_eq (q : PriorityQueue V) : pop q = pure q.pop := by
  cases htop : q.peek? with
  | none => simp only [pop, PriorityQueue.pop, htop]
  | some index => simp only [pop, PriorityQueue.pop, htop, remove_eq, pure_bind]

end Queue

variable {s : State} {l : Lit}

theorem litValue?_eq (h : l.atom < s.values.size) : litValue? s l = pure (s.litValue? l) := by
  have hget := Array.getElem?_eq_getElem h
  rw [litValue?, get_eq hget, pure_bind, State.litValue?, value?, hget]
  rfl

theorem assign_eq (h : s.Coherent) (hasAtom : s.HasAtom l.atom) (reason : Option Nat) :
    assign s l reason = pure (s.assign l reason) := by
  simp only [assign, set_eq hasAtom.2, set_eq (h.lt_phases hasAtom), set_eq (h.lt_levels hasAtom),
    set_eq (h.lt_reasons hasAtom), pure_bind]
  rfl

theorem releaseAll_eq {ls : List Lit} (sizes : s.reasons.size = s.values.size)
    (known : ∀ l ∈ ls, l.atom < s.values.size) : releaseAll ls s = pure (ls.foldl State.release s) := by
  induction ls generalizing s with
  | nil => rfl
  | cons l ls ih =>
    have lt := known l (List.mem_cons_self ..)
    have step : release s l = pure (s.release l) := by
      simp only [release, set_eq lt, set_eq (show l.atom < s.reasons.size by rw [sizes]; exact lt),
        enqueue_eq, pure_bind]
      rfl
    rw [releaseAll, step, pure_bind, List.foldl_cons]
    apply ih
    · simpa [State.release] using sizes
    · intro m hm
      simpa [State.release] using known m (List.mem_cons_of_mem _ hm)

theorem backjump_eq (h : s.Coherent) (target : Nat) : backjump s target = pure (s.backjump target) := by
  unfold backjump State.backjump
  split
  · rfl
  · next above =>
    have hstart := Array.getElem?_eq_getElem (show target < s.trail.starts.size from Nat.not_le.1 above)
    rw [get_eq hstart, pure_bind, if_neg (Nat.not_lt.2 (h.starts_le target _ hstart))]
    have known : ∀ l ∈ s.cleared target, l.atom < s.values.size := fun l hl =>
      (h.hasAtom_of_cleared (List.mem_map_of_mem hl)).2
    revert known
    rw [cleared]
    rcases s.trail.clearAbove target with ⟨literals, trail⟩
    intro known
    exact releaseAll_eq (s := { s with trail }) h.size_reasons known

theorem watch_eq (h : l.watchIndex < s.watches.size) (key : Nat) :
    watch s l key = pure (s.watch l key) := by
  have modified : s.watches.setIfInBounds l.watchIndex (s.watches[l.watchIndex].push key) =
      s.watches.modify l.watchIndex (·.push key) := by
    apply Array.ext_getElem?
    intro k
    rw [Array.getElem?_setIfInBounds, Array.getElem?_modify]
    split
    · next heq =>
      subst heq
      rw [Array.getElem?_eq_getElem h]
      rfl
    · rfl
  rw [watch, get_eq (Array.getElem?_eq_getElem h), pure_bind, set_eq h, pure_bind, modified]
  rfl

theorem store_eq {first second : Lit} (h : first.watchIndex < s.watches.size)
    (h' : second.watchIndex < s.watches.size) (rest : List Lit) :
    store s first second rest = pure (s.store first second rest) := by
  have h'' : second.watchIndex < (s.watch first s.clauses.size).watches.size := by
    simpa [State.watch] using h'
  simp only [store, watch_eq h, watch_eq h'', pure_bind]
  rfl

end Defeasible.Search.Checked
