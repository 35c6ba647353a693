import Defeasible.Proofs.Search.Coherent
import Defeasible.Proofs.PriorityQueue

/-! Taking levels back. What is left of the trail keeps its values, levels and reasons, and every atom
that loses its value waits again. -/

namespace Defeasible.Search.State

variable {s : State}

theorem foldl_release (s : State) (ls : List Lit) :
    ls.foldl release s =
      { s with
        values := ls.foldl (fun values l => values.setIfInBounds l.atom none) s.values
        reasons := ls.foldl (fun reasons l => reasons.setIfInBounds l.atom none) s.reasons
        activity := ls.foldl (fun queue l => (queue.enqueue l.atom).2) s.activity } := by
  induction ls generalizing s with
  | nil => rfl
  | cons l ls ih => rw [List.foldl_cons, ih]; rfl

theorem size_foldl_clear {α : Type} (ls : List Lit) (xs : Array (Option α)) :
    (ls.foldl (fun xs l => xs.setIfInBounds l.atom none) xs).size = xs.size := by
  induction ls generalizing xs with
  | nil => rfl
  | cons l ls ih => rw [List.foldl_cons, ih, Array.size_setIfInBounds]

theorem getElem?_foldl_clear {α : Type} (ls : List Lit) (xs : Array (Option α)) (atom : Nat) :
    (ls.foldl (fun xs l => xs.setIfInBounds l.atom none) xs)[atom]?.join =
      if atom ∈ ls.map Lit.atom then none else xs[atom]?.join := by
  induction ls generalizing xs with
  | nil => simp
  | cons l ls ih =>
    rw [List.foldl_cons, ih, Array.getElem?_setIfInBounds]
    simp only [List.map_cons, List.mem_cons]
    grind

def cleared (s : State) (target : Nat) : List Lit := (s.trail.clearAbove target).1

def remaining (s : State) (target : Nat) : Nat := (s.trail.starts[target]?).getD s.trail.literals.size

theorem backjump_eq (s : State) (target : Nat) : s.backjump target =
    { s with
      trail := (s.trail.clearAbove target).2
      values := (s.cleared target).foldl (fun values l => values.setIfInBounds l.atom none) s.values
      reasons := (s.cleared target).foldl (fun reasons l => reasons.setIfInBounds l.atom none) s.reasons
      activity := (s.cleared target).foldl (fun queue l => (queue.enqueue l.atom).2) s.activity } := by
  unfold backjump cleared
  split
  · next hle =>
    have : s.trail.starts[target]? = none := Array.getElem?_eq_none hle
    simp [Trail.clearAbove, this]
  · exact foldl_release _ _

theorem literals_backjump (s : State) (target : Nat) :
    (s.backjump target).trail.literals = s.trail.literals.extract 0 (s.remaining target) := by
  rw [backjump_eq]
  unfold Trail.clearAbove remaining
  split <;> simp [*]

theorem starts_backjump (s : State) (target : Nat) :
    (s.backjump target).trail.starts = s.trail.starts.extract 0 target := by
  rw [backjump_eq]
  unfold Trail.clearAbove
  split
  · next hn => exact (Array.extract_eq_self_of_le (Array.getElem?_eq_none_iff.1 hn)).symm
  · simp

theorem starts_backjump_zero (s : State) : (s.backjump 0).trail.starts = #[] := by
  rw [starts_backjump]
  simp

theorem head_backjump (h : s.Coherent) (target : Nat) :
    (s.backjump target).trail.head = min s.trail.head (s.remaining target) := by
  have := h.head_le
  rw [backjump_eq]
  unfold Trail.clearAbove remaining
  split <;> simp [*]

theorem cleared_eq (s : State) (target : Nat) :
    s.cleared target = s.trail.literals.toList.drop (s.remaining target) := by
  unfold cleared Trail.clearAbove remaining
  split <;> simp [*]

theorem Coherent.remaining_le (h : s.Coherent) (target : Nat) :
    s.remaining target ≤ s.trail.literals.size := by
  unfold remaining
  cases hstart : s.trail.starts[target]? with
  | none => exact Nat.le_refl _
  | some x => exact h.starts_le target x hstart

theorem Coherent.starts_le_remaining (h : s.Coherent) {target k x : Nat}
    (hk : s.trail.starts[k]? = some x) (lt : k < target) : x ≤ s.remaining target := by
  unfold remaining
  cases hstart : s.trail.starts[target]? with
  | none => exact h.starts_le k x hk
  | some y => exact h.starts_sorted k target x y (Nat.le_of_lt lt) hk hstart

theorem Coherent.getElem?_backjump (h : s.Coherent) {target i : Nat} {l : Lit} :
    (s.backjump target).trail.literals[i]? = some l ↔
      i < s.remaining target ∧ s.trail.literals[i]? = some l := by
  have := h.remaining_le target
  rw [literals_backjump, Array.getElem?_extract]
  simp only [Nat.zero_add]
  grind

theorem mem_cleared {target : Nat} {l : Lit} :
    l ∈ s.cleared target ↔ ∃ i, s.remaining target ≤ i ∧ s.trail.literals[i]? = some l := by
  rw [cleared_eq, List.mem_iff_getElem?]
  simp only [List.getElem?_drop, Array.getElem?_toList]
  constructor
  · rintro ⟨i, hi⟩
    exact ⟨_, Nat.le_add_right _ _, hi⟩
  · rintro ⟨i, le, hi⟩
    exact ⟨i - s.remaining target, by rwa [Nat.add_sub_cancel' le]⟩

theorem value?_backjump (target atom : Nat) : (s.backjump target).value? atom =
    if atom ∈ (s.cleared target).map Lit.atom then none else s.value? atom := by
  rw [backjump_eq]
  exact getElem?_foldl_clear _ _ _

theorem reason?_backjump (target atom : Nat) : (s.backjump target).reason? atom =
    if atom ∈ (s.cleared target).map Lit.atom then none else s.reason? atom := by
  rw [backjump_eq]
  exact getElem?_foldl_clear _ _ _

@[simp] theorem size_values_backjump (target : Nat) :
    (s.backjump target).values.size = s.values.size := by
  rw [backjump_eq]
  exact size_foldl_clear _ _

@[simp] theorem hasAtom_backjump (target atom : Nat) :
    (s.backjump target).HasAtom atom ↔ s.HasAtom atom := by
  simp [HasAtom]

theorem known_backjump {ls : List Lit} (known : ∀ l ∈ ls, s.HasAtom l.atom) (target : Nat) :
    ∀ l ∈ ls, (s.backjump target).HasAtom l.atom :=
  fun l hl => (hasAtom_backjump target l.atom).2 (known l hl)

@[simp] theorem levels_backjump (target : Nat) : (s.backjump target).levels = s.levels := by
  rw [backjump_eq]

@[simp] theorem level_backjump (target atom : Nat) : (s.backjump target).level atom = s.level atom := by
  simp [level]

@[simp] theorem clauses_backjump (target : Nat) : (s.backjump target).clauses = s.clauses := by
  rw [backjump_eq]

@[simp] theorem watches_backjump (target : Nat) : (s.backjump target).watches = s.watches := by
  rw [backjump_eq]

@[simp] theorem seen_backjump (target : Nat) : (s.backjump target).seen = s.seen := by
  rw [backjump_eq]

@[simp] theorem refuted_backjump (target : Nat) : (s.backjump target).refuted = s.refuted := by
  rw [backjump_eq]

@[simp] theorem settings_backjump (target : Nat) : (s.backjump target).settings = s.settings := by
  rw [backjump_eq]

theorem Coherent.not_cleared (h : s.Coherent) {target : Nat} {l : Lit}
    (hl : l ∈ (s.backjump target).trail.literals) : l.atom ∉ (s.cleared target).map Lit.atom := by
  intro hmem
  obtain ⟨m, hm, heq⟩ := List.mem_map.1 hmem
  obtain ⟨i, hi⟩ := Array.mem_iff_getElem?.1 hl
  obtain ⟨hlt, hi⟩ := h.getElem?_backjump.1 hi
  obtain ⟨j, hle, hj⟩ := mem_cleared.1 hm
  have := h.atom_inj i j l m hi hj heq.symm
  omega

theorem Coherent.mem_backjump (h : s.Coherent) {target : Nat} {l : Lit} :
    l ∈ (s.backjump target).trail.literals ↔
      l.atom ∉ (s.cleared target).map Lit.atom ∧ l ∈ s.trail.literals := by
  constructor
  · intro hl
    obtain ⟨i, hi⟩ := Array.mem_iff_getElem?.1 hl
    exact ⟨h.not_cleared hl, Array.mem_of_getElem? (h.getElem?_backjump.1 hi).2⟩
  · rintro ⟨hnot, hl⟩
    obtain ⟨i, hi⟩ := Array.mem_iff_getElem?.1 hl
    by_cases hlt : i < s.remaining target
    · exact Array.mem_of_getElem? (h.getElem?_backjump.2 ⟨hlt, hi⟩)
    · exact absurd (List.mem_map_of_mem (mem_cleared.2 ⟨i, by omega, hi⟩)) hnot

theorem Coherent.level_le_of_backjump (h : s.Coherent) {target : Nat} {l : Lit}
    (hl : l ∈ (s.backjump target).trail.literals) : s.level l.atom ≤ target := by
  obtain ⟨i, hi⟩ := Array.mem_iff_getElem?.1 hl
  obtain ⟨hlt, hi⟩ := h.getElem?_backjump.1 hi
  have hle := h.level_le l (Array.mem_of_getElem? hi)
  unfold remaining at hlt
  by_contra hgt
  have htarget : target < s.trail.starts.size := by
    unfold Trail.level at hle
    omega
  have hx := Array.getElem?_eq_getElem htarget
  rw [hx, Option.getD_some] at hlt
  have := (h.level_iff i l hi target _ hx).1 (by omega)
  omega

theorem Coherent.backjump (h : s.Coherent) (target : Nat) : (s.backjump target).Coherent := by
  have hstart : ∀ k x, (s.backjump target).trail.starts[k]? = some x →
      k < target ∧ s.trail.starts[k]? = some x := by
    intro k x hk
    rw [starts_backjump, Array.getElem?_extract] at hk
    simp only [Nat.zero_add] at hk
    grind
  have hreason : ∀ l ∈ (s.backjump target).trail.literals,
      (s.backjump target).reason? l.atom = s.reason? l.atom := by
    intro l hl
    rw [reason?_backjump, if_neg (h.not_cleared hl)]
  refine
    { size_pos := by simpa using h.size_pos
      size_phases := by simpa [backjump_eq, size_foldl_clear] using h.size_phases
      size_levels := by simpa using h.size_levels
      size_reasons := by simpa [backjump_eq, size_foldl_clear] using h.size_reasons
      size_seen := by simpa using h.size_seen
      size_watches := by simpa using h.size_watches
      starts_sorted := fun i j x y hij hx hy =>
        h.starts_sorted i j x y hij (hstart i x hx).2 (hstart j y hy).2
      starts_le := fun k x hk => ?_
      head_le := ?_
      hasAtom := fun l hl => by simpa using h.hasAtom l (h.mem_backjump.1 hl).2
      value_iff := fun l => ?_
      atom_inj := fun i j l m hi hj heq =>
        h.atom_inj i j l m (h.getElem?_backjump.1 hi).2 (h.getElem?_backjump.1 hj).2 heq
      level_le := fun l hl => ?_
      level_iff := fun i l hi k x hk => by
        simpa using h.level_iff i l (h.getElem?_backjump.1 hi).2 k x (hstart k x hk).2
      clause_size := by simpa using h.clause_size
      clause_hasAtom := by simpa using h.clause_hasAtom
      clause_nodup := by simpa using h.clause_nodup
      forced := fun i l key hi hr => ?_
      decided := fun i l hi hr hpos => ?_ }
  · obtain ⟨hlt, hk⟩ := hstart k x hk
    have := h.starts_le_remaining hk hlt
    have := h.starts_le k x hk
    rw [literals_backjump, Array.size_extract]
    omega
  · have := h.head_le
    have := h.remaining_le target
    rw [head_backjump h, literals_backjump, Array.size_extract]
    omega
  · rw [h.mem_backjump, ← h.value_iff]
    simp only [litValue?, value?_backjump]
    split <;> simp [*]
  · have hle := h.level_le_of_backjump hl
    have := h.level_le l (h.mem_backjump.1 hl).2
    simp only [Trail.level, level_backjump, starts_backjump, Array.size_extract] at this ⊢
    omega
  · obtain ⟨hlt, hi'⟩ := h.getElem?_backjump.1 hi
    rw [hreason l (Array.mem_of_getElem? hi)] at hr
    obtain ⟨c, hc, hl, hfalse⟩ := h.forced i l key hi' hr
    refine ⟨c, by simpa using hc, hl, fun m hm hne => ?_⟩
    obtain ⟨j, hj, hjm⟩ := hfalse m hm hne
    exact ⟨j, hj, h.getElem?_backjump.2 ⟨by omega, hjm⟩⟩
  · have hl := Array.mem_of_getElem? hi
    have hle := h.level_le_of_backjump hl
    rw [hreason l hl] at hr
    rw [level_backjump] at hpos ⊢
    have := h.decided i l (h.getElem?_backjump.1 hi).2 hr hpos
    have := (Array.getElem?_eq_some_iff.1 this).1
    rw [starts_backjump, Array.getElem?_extract, Nat.zero_add, if_pos (by omega)]
    assumption

/-! The queue of atoms without value. -/

structure Queued (s : State) : Prop where
  linked : s.activity.Linked
  hasRoom : ∀ atom, s.HasAtom atom → atom < s.activity.values.size
  size_le : s.activity.values.size ≤ s.values.size
  hasAtom : ∀ atom, s.activity.isWaiting atom = true → s.HasAtom atom

def Waiting (s : State) : Prop :=
  ∀ atom, s.HasAtom atom → s.value? atom = none → s.activity.isWaiting atom = true

theorem foldl_enqueue {q : PriorityQueue Float} (h : q.Linked) (ls : List Lit)
    (known : ∀ l ∈ ls, l.atom < q.values.size) :
    let q' := ls.foldl (fun queue l => (queue.enqueue l.atom).2) q
    q'.Linked ∧ q'.values.size = q.values.size ∧
      ∀ j, q'.isWaiting j = true ↔ j ∈ ls.map Lit.atom ∨ q.isWaiting j = true := by
  induction ls generalizing q with
  | nil => exact ⟨h, rfl, fun j => by simp⟩
  | cons l ls ih =>
    have gains := h.enqueue (known l (by simp))
    obtain ⟨hl, hs, hw⟩ := ih gains.linked fun m hm => by
      rw [gains.size_values]
      exact known m (by simp [hm])
    refine ⟨hl, hs.trans gains.size_values, fun j => ?_⟩
    rw [List.foldl_cons, hw, gains.isWaiting_iff]
    simp only [List.map_cons, List.mem_cons]
    grind

theorem Coherent.hasAtom_of_cleared (h : s.Coherent) {target atom : Nat}
    (hc : atom ∈ (s.cleared target).map Lit.atom) : s.HasAtom atom := by
  obtain ⟨l, hl, rfl⟩ := List.mem_map.1 hc
  obtain ⟨i, -, hi⟩ := mem_cleared.1 hl
  exact h.hasAtom l (Array.mem_of_getElem? hi)

theorem Queued.enqueue_cleared (q : s.Queued) (h : s.Coherent) (target : Nat) :
    (s.backjump target).activity.Linked ∧
      (s.backjump target).activity.values.size = s.activity.values.size ∧
      ∀ j, (s.backjump target).activity.isWaiting j = true ↔
        j ∈ (s.cleared target).map Lit.atom ∨ s.activity.isWaiting j = true := by
  rw [backjump_eq]
  exact foldl_enqueue q.linked _ fun l hl =>
    q.hasRoom _ (h.hasAtom_of_cleared (List.mem_map_of_mem hl))

theorem Queued.backjump (q : s.Queued) (h : s.Coherent) (target : Nat) :
    (s.backjump target).Queued := by
  obtain ⟨linked, size, waiting⟩ := q.enqueue_cleared h target
  refine ⟨linked, fun a ha => ?_, ?_, fun a ha => ?_⟩
  · rw [size]
    exact q.hasRoom a (by simpa using ha)
  · rw [size, size_values_backjump]
    exact q.size_le
  · rw [hasAtom_backjump]
    rcases (waiting a).1 ha with hc | hw
    · exact h.hasAtom_of_cleared hc
    · exact q.hasAtom a hw

theorem Waiting.backjump (w : s.Waiting) (q : s.Queued) (h : s.Coherent) (target : Nat) :
    (s.backjump target).Waiting := by
  obtain ⟨-, -, waiting⟩ := q.enqueue_cleared h target
  intro a ha free
  rw [waiting]
  rw [value?_backjump] at free
  by_cases hc : a ∈ (s.cleared target).map Lit.atom
  · exact .inl hc
  · rw [if_neg hc] at free
    exact .inr (w a (by simpa using ha) free)

end Defeasible.Search.State
