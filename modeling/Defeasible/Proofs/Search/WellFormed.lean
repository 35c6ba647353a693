import Defeasible.Proofs.Search.Structured

/-! What can be read off a state: values, levels, watches and reasons, in terms of the trail and the
clauses. -/

namespace Defeasible.Search

def Trail.levelAt (t : Trail) (place : Nat) : Nat := t.starts.toList.countP (· ≤ place)

namespace State

variable {s : State}

def watching (s : State) (l : Lit) : Array Nat := s.watches.getD l.watchIndex #[]

structure WellFormed (s : State) : Prop where
  /-- An atom has a value just where exactly one literal of it is on the trail, and this one's polarity. -/
  value : ∀ l : Lit, s.value? l.atom = some l.polarity ↔
    s.trail.literals.toList.filter (fun m => m.atom = l.atom) = [l]
  starts_sorted : s.trail.starts.toList.Pairwise (· ≤ ·)
  starts_le : ∀ start ∈ s.trail.starts, start ≤ s.trail.literals.size
  head_le : s.trail.head ≤ s.trail.literals.size
  level : ∀ (i : Nat) (l : Lit), s.value? l.atom = some l.polarity →
    s.trail.literals[i]? = some l → s.level l.atom = s.trail.levelAt i
  waiting : ∀ atom, s.HasAtom atom → s.value? atom = none →
    s.activity.isWaiting atom = true ∧ atom ∈ s.activity.heap
  clause_size : ∀ (key : Nat) (c : Array Lit), s.clauses[key]? = some c → 2 ≤ c.size
  clause_nodup : ∀ (key : Nat) (c : Array Lit), s.clauses[key]? = some c →
    (c.toList.map Lit.atom).Nodup
  /-- A clause is watched by its first two literals, once each, and by no other one. -/
  watched : ∀ (key : Nat) (d : Array Lit), s.clauses[key]? = some d → ∀ l : Lit,
    (s.watching l).count key = if d[0]? = some l ∨ d[1]? = some l then 1 else 0
  forced : ∀ (l : Lit) (key : Nat), s.value? l.atom = some l.polarity → s.reason? l.atom = some key →
    ∃ (c : Array Lit) (i : Nat), s.clauses[key]? = some c ∧ l ∈ c ∧ s.trail.literals[i]? = some l ∧
      ∀ m ∈ c, m ≠ l → s.litValue? m = some false ∧ ∃ j < i, s.trail.literals[j]? = some m.negate

theorem Coherent.value?_iff_mem (h : s.Coherent) (l : Lit) :
    s.value? l.atom = some l.polarity ↔ l ∈ s.trail.literals := by
  rw [← h.value_iff]
  simp [litValue?]

theorem filter_eq_singleton_iff {ls : List Lit} (nodup : (ls.map Lit.atom).Nodup) (l : Lit) :
    ls.filter (fun m => m.atom = l.atom) = [l] ↔ l ∈ ls := by
  induction ls with
  | nil => simp
  | cons m ls ih =>
    rw [List.map_cons, List.nodup_cons] at nodup
    obtain ⟨new, nodup⟩ := nodup
    by_cases heq : m.atom = l.atom
    · -- no other literal of the atom follows
      have none : ls.filter (fun m => m.atom = l.atom) = [] := by
        rw [List.filter_eq_nil_iff]
        intro n hn hatom
        rw [decide_eq_true_eq] at hatom
        exact new (heq ▸ hatom ▸ List.mem_map_of_mem hn)
      have notMem : l ∉ ls := fun hl => new (heq ▸ List.mem_map_of_mem hl)
      rw [List.filter_cons_of_pos (by simpa using heq), none]
      simp only [List.cons.injEq, and_true, List.mem_cons, notMem, or_false]
      exact eq_comm
    · have ne : l ≠ m := fun hl => heq (hl ▸ rfl)
      simp [heq, ih nodup, ne]

theorem countP_le_eq {xs : List Nat} {n place : Nat} (le : n ≤ xs.length)
    (split : ∀ k x, xs[k]? = some x → (k < n ↔ x ≤ place)) : xs.countP (· ≤ place) = n := by
  induction xs generalizing n with
  | nil => exact (Nat.le_zero.1 le).symm
  | cons x xs ih =>
    have first := split 0 x rfl
    cases n with
    | zero =>
      have rest := ih (Nat.zero_le _) fun k y hk => by simpa using split (k + 1) y hk
      have : ¬ x ≤ place := fun hx => Nat.not_lt_zero 0 (first.2 hx)
      simp [this, rest]
    | succ n =>
      have rest := ih (Nat.le_of_succ_le_succ le) fun k y hk => by simpa using split (k + 1) y hk
      simp [first.1 (Nat.succ_pos n), rest]

theorem Coherent.level_eq_levelAt (h : s.Coherent) {i : Nat} {l : Lit}
    (hl : s.trail.literals[i]? = some l) : s.level l.atom = s.trail.levelAt i :=
  (countP_le_eq (h.level_le l (Array.mem_of_getElem? hl)) fun k x hx =>
    h.level_iff i l hl k x (by simpa using hx)).symm

theorem Coherent.starts_pairwise (h : s.Coherent) : s.trail.starts.toList.Pairwise (· ≤ ·) := by
  rw [List.pairwise_iff_getElem]
  intro i j hi hj hij
  exact h.starts_sorted i j _ _ (Nat.le_of_lt hij) (by simp) (by simp)

theorem Coherent.watchCount_eq (h : s.Coherent) {key : Nat} {d : Array Lit}
    (hd : s.clauses[key]? = some d) (l : Lit) :
    watchCount d l.watchIndex = if d[0]? = some l ∨ d[1]? = some l then 1 else 0 := by
  have at_iff (i : Nat) : d[i]?.map Lit.watchIndex = some l.watchIndex ↔ d[i]? = some l := by
    rw [Option.map_eq_some_iff]
    constructor
    · rintro ⟨m, hm, heq⟩
      rwa [← Lit.watchIndex_inj heq]
    · exact fun hl => ⟨l, hl, rfl⟩
  have not_both : d[0]? = some l → d[1]? ≠ some l := fun h0 h1 =>
    absurd (h.clause_inj hd h0 h1 rfl) Nat.zero_ne_one
  simp only [watchCount, at_iff]
  by_cases h0 : d[0]? = some l
  · simp [h0, not_both h0]
  · simp [h0]

theorem Structured.wellFormed (h : s.Structured True) : s.WellFormed where
  value l := by
    rw [h.coherent.value?_iff_mem, ← Array.mem_toList_iff, filter_eq_singleton_iff h.coherent.nodup_atoms]
  starts_sorted := h.coherent.starts_pairwise
  starts_le start hs := by
    obtain ⟨k, hk⟩ := Array.mem_iff_getElem?.1 hs
    exact h.coherent.starts_le k start hk
  head_le := h.coherent.head_le
  level _ _ _ hi := h.coherent.level_eq_levelAt hi
  waiting atom ha free := by
    have waits := h.waiting trivial atom ha free
    obtain ⟨place, hplace⟩ := (h.queued.linked.isWaiting_iff atom).1 waits
    exact ⟨waits, Array.mem_of_getElem? hplace⟩
  clause_size := h.coherent.clause_size
  clause_nodup := h.coherent.clause_nodup
  watched key d hd l := by
    rw [watching, h.watched, Array.getD_eq_getD_getElem?, hd, Option.getD_some]
    exact h.coherent.watchCount_eq hd l
  forced l key hv hr := by
    obtain ⟨i, hi⟩ := Array.mem_iff_getElem?.1 ((h.coherent.value?_iff_mem l).1 hv)
    obtain ⟨c, hc, hl, hfalse⟩ := h.coherent.forced i l key hi hr
    refine ⟨c, i, hc, hl, hi, fun m hm hne => ?_⟩
    obtain ⟨j, hj, hjm⟩ := hfalse m hm hne
    exact ⟨(h.coherent.false_iff m).2 (Array.mem_of_getElem? hjm), j, hj, hjm⟩

end State

end Defeasible.Search
