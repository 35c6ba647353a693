import Defeasible.Proofs.Search.Learning
import Mathlib.Data.Finset.Powerset
import Mathlib.Data.Finset.Prod

/-! Every conflict teaches something new, and there are finitely many clauses to know. -/

namespace Defeasible.Search.State

variable {s s' : State} {settings : Settings} {clauses : List (List Lit)}

def known (s : State) : Finset (Finset Lit) :=
  (s.clauses.toList.map fun c => c.toList.toFinset).toFinset ∪
    ((s.trail.literals.toList.filter fun l => s.level l.atom = 0).map fun l => {l}).toFinset

theorem mem_known {k : Finset Lit} : k ∈ s.known ↔
    (∃ (key : Nat) (c : Array Lit), s.clauses[key]? = some c ∧ c.toList.toFinset = k) ∨
      ∃ l ∈ s.trail.literals, s.level l.atom = 0 ∧ {l} = k := by
  simp only [known, Finset.mem_union, List.mem_toFinset, List.mem_map, List.mem_filter,
    Array.mem_toList_iff, decide_eq_true_eq, and_assoc]
  apply or_congr_left
  constructor
  · rintro ⟨c, hc, heq⟩
    obtain ⟨key, hkey⟩ := Array.mem_iff_getElem?.1 hc
    exact ⟨key, c, hkey, heq⟩
  · rintro ⟨key, c, hc, heq⟩
    exact ⟨c, Array.mem_of_getElem? hc, heq⟩

theorem Retains.known_subset (r : Retains s s') : s.known ⊆ s'.known := by
  intro k hk
  rcases mem_known.1 hk with ⟨key, c, hc, rfl⟩ | ⟨l, hl, hz, rfl⟩
  · obtain ⟨d, hd, perm⟩ := r.clauses key c hc
    refine mem_known.2 (.inl ⟨key, d, hd, ?_⟩)
    exact List.toFinset_eq_of_perm _ _ (Array.perm_iff_toList_perm.1 perm)
  · obtain ⟨hl, hz⟩ := r.fixed l hl hz
    exact mem_known.2 (.inr ⟨l, hl, hz, rfl⟩)

def literalsBelow (n : Nat) : Finset Lit :=
  (Finset.range n ×ˢ {false, true}).image fun p => ⟨p.1, p.2⟩

theorem mem_literalsBelow {n : Nat} {l : Lit} (h : l.atom < n) : l ∈ literalsBelow n := by
  refine Finset.mem_image.2 ⟨(l.atom, l.polarity), Finset.mem_product.2 ⟨Finset.mem_range.2 h, ?_⟩, rfl⟩
  cases l.polarity <;> simp

theorem card_literalsBelow_le (n : Nat) : (literalsBelow n).card ≤ 2 * n := by
  refine Finset.card_image_le.trans ?_
  rw [Finset.card_product, Finset.card_range]
  simp [Nat.mul_comm]

theorem Coherent.known_subset (h : s.Coherent) : s.known ⊆ (literalsBelow s.values.size).powerset := by
  intro k hk
  rw [Finset.mem_powerset]
  intro l hl
  apply mem_literalsBelow
  rcases mem_known.1 hk with ⟨key, c, hc, rfl⟩ | ⟨m, hm, -, rfl⟩
  · rw [List.mem_toFinset, Array.mem_toList_iff] at hl
    exact (h.clause_hasAtom key c hc l hl).2
  · obtain rfl := Finset.mem_singleton.1 hl
    exact (h.hasAtom l hm).2

theorem Coherent.card_known_le (h : s.Coherent) : s.known.card ≤ 4 ^ s.values.size := by
  calc
    s.known.card ≤ (literalsBelow s.values.size).powerset.card := Finset.card_le_card h.known_subset
    _ = 2 ^ (literalsBelow s.values.size).card := Finset.card_powerset _
    _ ≤ 2 ^ (2 * s.values.size) := Nat.pow_le_pow_right (by omega) (card_literalsBelow_le _)
    _ = 4 ^ s.values.size := by rw [Nat.pow_mul]

/-- The watched literals of a stored clause that is false are both of the current level, for before the
last level every false one was made good. -/
theorem Searching.level_of_false {assumptions : List Lit} {m key : Nat} {c : Array Lit} {a b : Lit}
    (g : Searching assumptions m s) (h : s.Coherent) (hc : s.clauses[key]? = some c)
    (hp : WatchPair c a b) (ha : a.negate ∈ s.trail.literals) (hb : b.negate ∈ s.trail.literals) :
    s.level a.atom = s.trail.level := by
  obtain ⟨i, hi⟩ := Array.mem_iff_getElem?.1 ha
  refine h.level_eq_current (l := a.negate) hi fun x hx => ?_
  have hx := g.starts_le x hx
  by_contra hlt
  exact h.not_both (g.guarded key c a b hc hp i (by omega) hi).1 hb

theorem Lesson.not_known {assumptions : List Lit} {m : Nat} {learnt : Learnt}
    (g : Searching assumptions m s) (h : s.Coherent) (lesson : s.Lesson learnt) :
    learnt.toList.toFinset ∉ s.known := by
  intro hk
  have falsified : ∀ l ∈ learnt.toList, l.negate ∈ s.trail.literals := by
    intro l hl
    rcases List.mem_cons.1 hl with rfl | hl
    · exact lesson.asserting.asserted_false
    · exact lesson.asserting.others_false l (Array.mem_toList_iff.1 hl)
  -- only the first literal of the learnt clause is of the current level
  have only : ∀ l ∈ learnt.toList, s.level l.atom = s.trail.level → l = learnt.asserted := by
    intro l hl hlevel
    refine (List.mem_cons.1 hl).resolve_right fun hl => ?_
    have := (lesson.asserting.others_level l (Array.mem_toList_iff.1 hl)).2
    omega
  rcases mem_known.1 hk with ⟨key, c, hc, heq⟩ | ⟨l, hl, -, heq⟩
  · have hmem : ∀ l, l ∈ c ↔ l ∈ learnt.toList := fun l => by
      rw [← List.mem_toFinset, ← heq, List.mem_toFinset, Array.mem_toList_iff]
    have hsize := h.clause_size key c hc
    have h0 := Array.getElem?_eq_getElem (show 0 < c.size by omega)
    have h1 := Array.getElem?_eq_getElem (show 1 < c.size by omega)
    have m0 := (hmem _).1 (Array.mem_of_getElem? h0)
    have m1 := (hmem _).1 (Array.mem_of_getElem? h1)
    have l0 := g.level_of_false h hc (.inl ⟨h0, h1⟩) (falsified _ m0) (falsified _ m1)
    have l1 := g.level_of_false h hc (.inr ⟨h1, h0⟩) (falsified _ m1) (falsified _ m0)
    have := h.clause_inj hc h0 h1 (congrArg Lit.atom ((only _ m0 l0).trans (only _ m1 l1).symm))
    omega
  · have hasserted : learnt.asserted ∈ ({l} : Finset Lit) := by
      rw [heq]
      exact List.mem_toFinset.2 (List.mem_cons_self ..)
    obtain rfl := Finset.mem_singleton.1 hasserted
    exact h.not_both hl lesson.asserting.asserted_false

theorem Lesson.retains {learnt : Learnt} (h : s.Coherent) (lesson : s.Lesson learnt) :
    Retains s (s.learn learnt) := by
  have back := h.retains_backjump learnt.backjumpLevel
  have hback := h.backjump learnt.backjumpLevel
  have hasAtom := (hasAtom_backjump learnt.backjumpLevel _).2 (lesson.shape.asserted_hasAtom h)
  have free := lesson.shape.free h
  cases hothers : learnt.others.toList with
  | nil =>
    rw [learn_nil hothers]
    exact back.trans (hback.retains_assign _ hasAtom free)
  | cons second rest =>
    have hlist : learnt.toList = learnt.asserted :: second :: rest := by rw [Learnt.toList, hothers]
    have known := lesson.shape.hasAtom h
    have nodup := lesson.shape.nodup
    rw [hlist] at known nodup
    rw [learn_cons hothers]
    have stored := hback.store (known_backjump known _) nodup
    exact (back.trans (retains_store _ _ _ _)).trans
      (stored.retains_assign _ (by rwa [hasAtom_store]) (by rwa [value?_store]))

theorem Lesson.mem_known_learn {learnt : Learnt} (h : s.Coherent) (lesson : s.Lesson learnt) :
    learnt.toList.toFinset ∈ (s.learn learnt).known := by
  rw [mem_known]
  cases hothers : learnt.others.toList with
  | nil =>
    have hzero := lesson.backjumpLevel_eq_zero (by simpa using hothers)
    have hlt := (h.backjump learnt.backjumpLevel).lt_levels
      ((hasAtom_backjump _ _).2 (lesson.shape.asserted_hasAtom h))
    refine .inr ⟨learnt.asserted, ?_, ?_, ?_⟩
    · rw [learn_nil hothers]
      exact Array.mem_push_self ..
    · rw [learn_nil hothers, level_assign _ _ hlt, if_pos rfl, lesson.shape.level_backjump, hzero]
    · rw [Learnt.toList, hothers]
      rfl
  | cons second rest =>
    refine .inl ⟨s.clauses.size, (learnt.asserted :: second :: rest).toArray, ?_, ?_⟩
    · rw [learn_cons hothers]
      exact (getElem?_store _ _).2 (.inl ⟨by rw [clauses_backjump], rfl⟩)
    · rw [Learnt.toList, hothers]

theorem Lesson.card_known_lt {assumptions : List Lit} {m : Nat} {learnt : Learnt}
    (g : Searching assumptions m s) (h : s.Coherent) (lesson : s.Lesson learnt) :
    s.known.card < (s.learn learnt).known.card :=
  Finset.card_lt_card (Finset.ssubset_iff_subset_ne.2 ⟨(lesson.retains h).known_subset, fun heq =>
    lesson.not_known g h (by rw [heq]; exact lesson.mem_known_learn h)⟩)

end Defeasible.Search.State
