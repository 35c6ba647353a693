import Defeasible.Search.State
import Defeasible.Proofs.Search.Entailment
import Mathlib.Data.List.Nodup
import Mathlib.Data.List.Perm.Subperm

/-! The trail, the values, the levels and the reasons of a state tell one story. -/

namespace Defeasible.Search.State

def HasAtom (s : State) (atom : Nat) : Prop := 0 < atom ∧ atom < s.values.size

instance (s : State) (atom : Nat) : Decidable (s.HasAtom atom) :=
  inferInstanceAs (Decidable (_ ∧ _))

def reason? (s : State) (atom : Nat) : Option Nat := s.reasons[atom]?.join

structure Coherent (s : State) : Prop where
  size_pos : 0 < s.values.size
  size_phases : s.phases.size = s.values.size
  size_levels : s.levels.size = s.values.size
  size_reasons : s.reasons.size = s.values.size
  size_seen : s.seen.size = s.values.size
  size_watches : s.watches.size = 2 * s.values.size
  starts_sorted : ∀ i j x y : Nat, i ≤ j → s.trail.starts[i]? = some x → s.trail.starts[j]? = some y →
    x ≤ y
  starts_le : ∀ i x : Nat, s.trail.starts[i]? = some x → x ≤ s.trail.literals.size
  head_le : s.trail.head ≤ s.trail.literals.size
  hasAtom : ∀ l ∈ s.trail.literals, s.HasAtom l.atom
  value_iff : ∀ l : Lit, s.litValue? l = some true ↔ l ∈ s.trail.literals
  atom_inj : ∀ (i j : Nat) (l m : Lit), s.trail.literals[i]? = some l →
    s.trail.literals[j]? = some m → l.atom = m.atom → i = j
  level_le : ∀ l ∈ s.trail.literals, s.level l.atom ≤ s.trail.level
  level_iff : ∀ (i : Nat) (l : Lit), s.trail.literals[i]? = some l → ∀ k x : Nat,
    s.trail.starts[k]? = some x → (k < s.level l.atom ↔ x ≤ i)
  clause_size : ∀ (key : Nat) (c : Array Lit), s.clauses[key]? = some c → 2 ≤ c.size
  clause_hasAtom : ∀ (key : Nat) (c : Array Lit), s.clauses[key]? = some c → ∀ l ∈ c, s.HasAtom l.atom
  clause_nodup : ∀ (key : Nat) (c : Array Lit), s.clauses[key]? = some c →
    (c.toList.map Lit.atom).Nodup
  /-- The other literals of a reason are false, and were so before. -/
  forced : ∀ (i : Nat) (l : Lit) (key : Nat), s.trail.literals[i]? = some l →
    s.reason? l.atom = some key → ∃ c, s.clauses[key]? = some c ∧ l ∈ c ∧
      ∀ m ∈ c, m ≠ l → ∃ j < i, s.trail.literals[j]? = some m.negate
  decided : ∀ (i : Nat) (l : Lit), s.trail.literals[i]? = some l → s.reason? l.atom = none →
    0 < s.level l.atom → s.trail.starts[s.level l.atom - 1]? = some i

theorem litValue?_negate (s : State) (l : Lit) : s.litValue? l.negate = (s.litValue? l).map not := by
  simp only [litValue?, Lit.atom_negate, Option.map_map]
  congr 1
  funext b
  cases b <;> cases h : l.polarity <;> simp [Lit.negate, h]

theorem value?_eq_none_iff (s : State) (l : Lit) : s.value? l.atom = none ↔ s.litValue? l = none := by
  simp [litValue?]

section

variable {s : State}

section Bounds

variable {atom : Nat} (h : s.Coherent) (hasAtom : s.HasAtom atom)

include h hasAtom

theorem Coherent.lt_phases : atom < s.phases.size := h.size_phases.symm ▸ hasAtom.2

theorem Coherent.lt_levels : atom < s.levels.size := h.size_levels.symm ▸ hasAtom.2

theorem Coherent.lt_reasons : atom < s.reasons.size := h.size_reasons.symm ▸ hasAtom.2

theorem Coherent.lt_seen : atom < s.seen.size := h.size_seen.symm ▸ hasAtom.2

end Bounds

theorem Coherent.watchIndex_lt (h : s.Coherent) {l : Lit} (hasAtom : s.HasAtom l.atom) :
    l.watchIndex < s.watches.size :=
  h.size_watches.symm ▸ Lit.watchIndex_lt hasAtom.2

theorem Coherent.false_iff (h : s.Coherent) (l : Lit) :
    s.litValue? l = some false ↔ l.negate ∈ s.trail.literals := by
  rw [← h.value_iff, litValue?_negate]
  cases s.litValue? l with
  | none => simp
  | some b => cases b <;> simp

theorem Coherent.none_iff (h : s.Coherent) (l : Lit) :
    s.litValue? l = none ↔ l ∉ s.trail.literals ∧ l.negate ∉ s.trail.literals := by
  rw [← h.value_iff, ← h.false_iff]
  cases s.litValue? l with
  | none => simp
  | some b => cases b <;> simp

theorem Coherent.not_both (h : s.Coherent) {l : Lit} (pos : l ∈ s.trail.literals) :
    l.negate ∉ s.trail.literals := by
  intro neg
  rw [← h.value_iff] at pos
  rw [← h.false_iff, pos] at neg
  cases neg

theorem Coherent.level_mono (h : s.Coherent) {i j : Nat} {l m : Lit}
    (hi : s.trail.literals[i]? = some l) (hj : s.trail.literals[j]? = some m) (le : i ≤ j) :
    s.level l.atom ≤ s.level m.atom := by
  by_contra hlt
  have hl := h.level_le l (Array.mem_of_getElem? hi)
  have hk : s.level m.atom < s.trail.starts.size := by unfold Trail.level at hl; omega
  have hx := Array.getElem?_eq_getElem hk
  have h1 := (h.level_iff i l hi _ _ hx).1 (by omega)
  have h2 := (h.level_iff j m hj _ _ hx).2 (by omega)
  omega

theorem Coherent.level_eq_current (h : s.Coherent) {i : Nat} {l : Lit}
    (hi : s.trail.literals[i]? = some l) (starts : ∀ x ∈ s.trail.starts, x ≤ i) :
    s.level l.atom = s.trail.level := by
  have hle := h.level_le l (Array.mem_of_getElem? hi)
  by_contra hne
  have hk : s.level l.atom < s.trail.starts.size := by unfold Trail.level at hle hne; omega
  have hx := Array.getElem?_eq_getElem hk
  have := (h.level_iff i l hi _ _ hx).2 (starts _ (Array.getElem_mem hk))
  omega

theorem Coherent.clause_inj (h : s.Coherent) {key : Nat} {d : Array Lit} (hc : s.clauses[key]? = some d)
    {p q : Nat} {l m : Lit} (hp : d[p]? = some l) (hq : d[q]? = some m) (heq : l.atom = m.atom) :
    p = q := by
  have hlt : p < (d.toList.map Lit.atom).length := by
    simpa using (Array.getElem?_eq_some_iff.1 hp).1
  exact (List.getElem?_inj hlt (h.clause_nodup key d hc)).1 (by simp [hp, hq, heq])

theorem Coherent.nodup_atoms (h : s.Coherent) : (s.trail.literals.toList.map Lit.atom).Nodup := by
  rw [List.nodup_iff_getElem?_ne_getElem?]
  intro i j hij hj heq
  have hj' : j < s.trail.literals.size := by simpa using hj
  have hl := Array.getElem?_eq_getElem (show i < s.trail.literals.size by omega)
  have hm := Array.getElem?_eq_getElem hj'
  simp only [List.getElem?_map, Array.getElem?_toList, hl, hm, Option.map_some] at heq
  have := h.atom_inj i j _ _ hl hm (Option.some.inj heq)
  omega

theorem Coherent.size_literals_le (h : s.Coherent) : s.trail.literals.size ≤ s.values.size := by
  have hsub : s.trail.literals.toList.map Lit.atom ⊆ List.range s.values.size := by
    intro a ha
    obtain ⟨l, hl, rfl⟩ := List.mem_map.1 ha
    exact List.mem_range.2 (h.hasAtom l (Array.mem_toList_iff.1 hl)).2
  simpa using (List.subperm_of_subset h.nodup_atoms hsub).length_le

theorem value?_assign (l : Lit) (reason : Option Nat) (hl : l.atom < s.values.size) (atom : Nat) :
    (s.assign l reason).value? atom = if atom = l.atom then some l.polarity else s.value? atom := by
  simp only [value?, assign, Array.getElem?_setIfInBounds]
  grind

theorem litValue?_assign (l : Lit) (reason : Option Nat) (hl : l.atom < s.values.size) (m : Lit) :
    (s.assign l reason).litValue? m =
      if m.atom = l.atom then some (l.polarity == m.polarity) else s.litValue? m := by
  simp only [litValue?, value?_assign l reason hl]
  split <;> simp

theorem level_assign (l : Lit) (reason : Option Nat) (hl : l.atom < s.levels.size) (atom : Nat) :
    (s.assign l reason).level atom = if atom = l.atom then s.trail.level else s.level atom := by
  simp only [level, assign, Array.getD_eq_getD_getElem?, Array.getElem?_setIfInBounds]
  grind

theorem reason?_assign (l : Lit) (reason : Option Nat) (hl : l.atom < s.reasons.size) (atom : Nat) :
    (s.assign l reason).reason? atom = if atom = l.atom then reason else s.reason? atom := by
  simp only [reason?, assign, Array.getElem?_setIfInBounds]
  grind

@[simp] theorem literals_assign (l : Lit) (reason : Option Nat) :
    (s.assign l reason).trail.literals = s.trail.literals.push l := rfl

@[simp] theorem starts_assign (l : Lit) (reason : Option Nat) :
    (s.assign l reason).trail.starts = s.trail.starts := rfl

theorem getElem?_push_cases {α : Type} {xs : Array α} {x y : α} {i : Nat}
    (h : (xs.push x)[i]? = some y) : i = xs.size ∧ y = x ∨ i < xs.size ∧ xs[i]? = some y := by
  rw [Array.getElem?_push] at h
  grind

section Assign

variable {l : Lit} (h : s.Coherent) (reason : Option Nat) (hasAtom : s.HasAtom l.atom)
  (free : s.value? l.atom = none)

include h free in
theorem Coherent.atom_ne_of_free {m : Lit} (hm : m ∈ s.trail.literals) : m.atom ≠ l.atom := by
  intro heq
  have := (h.value_iff m).2 hm
  simp [litValue?, heq, free] at this

include h hasAtom free

theorem Coherent.level_assign_of_mem {m : Lit} (hm : m ∈ s.trail.literals) :
    (s.assign l reason).level m.atom = s.level m.atom := by
  rw [level_assign l reason (h.lt_levels hasAtom), if_neg (h.atom_ne_of_free free hm)]

theorem Coherent.reason?_assign_of_mem {m : Lit} (hm : m ∈ s.trail.literals) :
    (s.assign l reason).reason? m.atom = s.reason? m.atom := by
  rw [reason?_assign l reason (h.lt_reasons hasAtom), if_neg (h.atom_ne_of_free free hm)]

theorem Coherent.value_iff_assign (m : Lit) :
    (s.assign l reason).litValue? m = some true ↔ m ∈ (s.assign l reason).trail.literals := by
  rw [litValue?_assign l reason hasAtom.2, literals_assign, Array.mem_push]
  split
  · next heq =>
    have hnot : m ∉ s.trail.literals := fun hm => h.atom_ne_of_free free hm heq
    rcases Lit.eq_or_eq_negate heq with rfl | rfl
    · simp
    · have differ : (l.polarity == l.negate.polarity) = false := by simp [Lit.negate]
      simp [hnot, Lit.negate_ne, differ]
  · next hne =>
    rw [h.value_iff]
    have : m ≠ l := fun heq => hne (congrArg Lit.atom heq)
    simp [this]

theorem Coherent.level_iff_assign (i : Nat) (m : Lit)
    (hi : (s.assign l reason).trail.literals[i]? = some m) (k x : Nat)
    (hx : s.trail.starts[k]? = some x) : k < (s.assign l reason).level m.atom ↔ x ≤ i := by
  rcases getElem?_push_cases hi with ⟨rfl, rfl⟩ | ⟨-, hm⟩
  · have hk : k < s.trail.starts.size := (Array.getElem?_eq_some_iff.1 hx).1
    rw [level_assign m reason (h.lt_levels hasAtom), if_pos rfl]
    exact iff_of_true hk (h.starts_le k x hx)
  · rw [h.level_assign_of_mem reason hasAtom free (Array.mem_of_getElem? hm)]
    exact h.level_iff i m hm k x hx

theorem Coherent.assign {reason : Option Nat}
    (forced : ∀ key, reason = some key → ∃ c, s.clauses[key]? = some c ∧ l ∈ c ∧
      ∀ m ∈ c, m ≠ l → m.negate ∈ s.trail.literals)
    (decided : reason = none → 0 < s.trail.level →
      s.trail.starts[s.trail.level - 1]? = some s.trail.literals.size) :
    (s.assign l reason).Coherent := by
  have hlev := h.lt_levels hasAtom
  have hrea := h.lt_reasons hasAtom
  refine
    { size_pos := by simpa [State.assign] using h.size_pos
      size_phases := by simpa [State.assign] using h.size_phases
      size_levels := by simpa [State.assign] using h.size_levels
      size_reasons := by simpa [State.assign] using h.size_reasons
      size_seen := by simpa [State.assign] using h.size_seen
      size_watches := by simpa [State.assign] using h.size_watches
      starts_sorted := h.starts_sorted
      starts_le := fun i x hx => by
        have := h.starts_le i x hx
        simp only [literals_assign, Array.size_push]
        omega
      head_le := Nat.le_trans h.head_le (by simp)
      hasAtom := fun m hm => ?_
      value_iff := h.value_iff_assign reason hasAtom free
      atom_inj := fun i j m n hi hj heq => ?_
      level_le := fun m hm => ?_
      level_iff := h.level_iff_assign reason hasAtom free
      clause_size := h.clause_size
      clause_hasAtom := fun key c hc m hm => by
        simpa [State.assign, HasAtom] using h.clause_hasAtom key c hc m hm
      clause_nodup := h.clause_nodup
      forced := fun i m key hi hr => ?_
      decided := fun i m hi hr hpos => ?_ }
  · rcases Array.mem_push.1 hm with hm | rfl
    · simpa [State.assign, HasAtom] using h.hasAtom m hm
    · simpa [State.assign, HasAtom] using hasAtom
  · rcases getElem?_push_cases hi with ⟨rfl, rfl⟩ | ⟨-, hm⟩ <;>
      rcases getElem?_push_cases hj with ⟨rfl, rfl⟩ | ⟨-, hn⟩
    · rfl
    · exact absurd heq.symm (h.atom_ne_of_free free (Array.mem_of_getElem? hn))
    · exact absurd heq (h.atom_ne_of_free free (Array.mem_of_getElem? hm))
    · exact h.atom_inj i j m n hm hn heq
  · rcases Array.mem_push.1 hm with hm | rfl
    · rw [h.level_assign_of_mem reason hasAtom free hm]
      exact h.level_le m hm
    · rw [level_assign m reason hlev, if_pos rfl]
      exact Nat.le_refl _
  · rcases getElem?_push_cases hi with ⟨rfl, rfl⟩ | ⟨-, hm⟩
    · rw [reason?_assign m reason hrea, if_pos rfl] at hr
      obtain ⟨c, hc, hmc, hfalse⟩ := forced key hr
      refine ⟨c, hc, hmc, fun n hn hne => ?_⟩
      obtain ⟨j, hj, hjn⟩ := Array.mem_iff_getElem.1 (hfalse n hn hne)
      exact ⟨j, hj, by rw [literals_assign, Array.getElem?_push_lt hj, hjn]⟩
    · rw [h.reason?_assign_of_mem reason hasAtom free (Array.mem_of_getElem? hm)] at hr
      obtain ⟨c, hc, hmc, hfalse⟩ := h.forced i m key hm hr
      refine ⟨c, hc, hmc, fun n hn hne => ?_⟩
      obtain ⟨j, hj, hjn⟩ := hfalse n hn hne
      have hlt := (Array.getElem?_eq_some_iff.1 hjn).1
      refine ⟨j, hj, ?_⟩
      rw [literals_assign, Array.getElem?_push, if_neg (by omega), hjn]
  · rcases getElem?_push_cases hi with ⟨rfl, rfl⟩ | ⟨-, hm⟩
    · rw [reason?_assign m reason hrea, if_pos rfl] at hr
      rw [level_assign m reason hlev, if_pos rfl] at hpos ⊢
      exact decided hr hpos
    · have hmem := Array.mem_of_getElem? hm
      rw [h.reason?_assign_of_mem reason hasAtom free hmem] at hr
      rw [h.level_assign_of_mem reason hasAtom free hmem] at hpos ⊢
      exact h.decided i m hm hr hpos

end Assign

theorem Coherent.openLevel (h : s.Coherent) : { s with trail := s.trail.openLevel }.Coherent := by
  refine { h with
    starts_sorted := fun i j x y hij hx hy => ?_
    starts_le := fun i x hx => ?_
    level_le := fun l hl => ?_
    level_iff := fun i l hi k x hx => ?_
    decided := fun i l hi hr hpos => ?_ }
  · rcases getElem?_push_cases hx with ⟨rfl, rfl⟩ | ⟨-, hx⟩ <;>
      rcases getElem?_push_cases hy with ⟨rfl, rfl⟩ | ⟨-, hy⟩
    · exact Nat.le_refl _
    · have := (Array.getElem?_eq_some_iff.1 hy).1
      omega
    · exact h.starts_le i x hx
    · exact h.starts_sorted i j x y hij hx hy
  · rcases getElem?_push_cases hx with ⟨-, rfl⟩ | ⟨-, hx⟩
    · exact Nat.le_refl _
    · exact h.starts_le i x hx
  · refine Nat.le_trans (h.level_le l hl) ?_
    simp [Trail.level, Trail.openLevel]
  · rcases getElem?_push_cases hx with ⟨rfl, rfl⟩ | ⟨-, hx⟩
    · have hle := h.level_le l (Array.mem_of_getElem? hi)
      have hlt : i < s.trail.literals.size := (Array.getElem?_eq_some_iff.1 hi).1
      unfold Trail.level at hle
      change s.trail.starts.size < s.level l.atom ↔ _
      omega
    · exact h.level_iff i l hi k x hx
  · have hstart := h.decided i l hi hr hpos
    have hlt := (Array.getElem?_eq_some_iff.1 hstart).1
    change (s.trail.starts.push s.trail.literals.size)[s.level l.atom - 1]? = some i
    rw [Array.getElem?_push_lt hlt]
    exact (Array.getElem?_eq_getElem hlt).symm.trans hstart

theorem Coherent.withClauses (h : s.Coherent) {clauses : Array (Array Lit)} {watches : Array (Array Nat)}
    (size_watches : watches.size = 2 * s.values.size)
    (formed : ∀ (key : Nat) (c : Array Lit), clauses[key]? = some c →
      2 ≤ c.size ∧ (∀ l ∈ c, s.HasAtom l.atom) ∧ (c.toList.map Lit.atom).Nodup)
    (kept : ∀ (key : Nat) (c : Array Lit), s.clauses[key]? = some c →
      ∃ d, clauses[key]? = some d ∧ ∀ l, l ∈ d ↔ l ∈ c) :
    { s with clauses, watches }.Coherent := by
  refine { h with
    size_watches
    clause_size := fun key c hc => (formed key c hc).1
    clause_hasAtom := fun key c hc => (formed key c hc).2.1
    clause_nodup := fun key c hc => (formed key c hc).2.2
    forced := fun i l key hi hr => ?_ }
  obtain ⟨c, hc, hl, hfalse⟩ := h.forced i l key hi hr
  obtain ⟨d, hd, hiff⟩ := kept key c hc
  exact ⟨d, hd, (hiff l).2 hl, fun m hm hne => hfalse m ((hiff m).1 hm) hne⟩

/-- Where the clauses hold, the literals up to a level follow from those among them that no clause
forced. -/
theorem Coherent.holds_of_decided (h : s.Coherent) {v : Valuation} {n : Nat}
    (clauses : ∀ (key : Nat) (c : Array Lit), s.clauses[key]? = some c → Satisfies v c.toList)
    (decided : ∀ l ∈ s.trail.literals, s.level l.atom ≤ n → s.reason? l.atom = none → l.Holds v) :
    ∀ l ∈ s.trail.literals, s.level l.atom ≤ n → l.Holds v := by
  suffices ∀ (i : Nat) (l : Lit), s.trail.literals[i]? = some l → s.level l.atom ≤ n → l.Holds v by
    intro l hl
    obtain ⟨i, hi⟩ := Array.mem_iff_getElem?.1 hl
    exact this i l hi
  intro i
  induction i using Nat.strongRecOn with
  | ind i ih =>
    intro l hi hlevel
    cases hr : s.reason? l.atom with
    | none => exact decided l (Array.mem_of_getElem? hi) hlevel hr
    | some key =>
      obtain ⟨c, hc, -, hfalse⟩ := h.forced i l key hi hr
      obtain ⟨m, hm, holds⟩ := clauses key c hc
      by_cases heq : m = l
      · rwa [← heq]
      · obtain ⟨j, hj, hneg⟩ := hfalse m (Array.mem_toList_iff.1 hm) heq
        have hle := h.level_mono hneg hi (Nat.le_of_lt hj)
        have := ih j hj m.negate hneg (Nat.le_trans hle hlevel)
        exact absurd holds ((Lit.holds_negate v m).1 this)

end

end Defeasible.Search.State
