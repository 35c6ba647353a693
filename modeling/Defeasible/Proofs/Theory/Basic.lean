import Defeasible.Proofs.Ground.World
import Defeasible.Theory.Basic

/-! Regular theories, which all operations on theories make, and what their cuts hold. -/

namespace Defeasible

namespace Necessity

variable {a b c : Necessity}

theorem compare_eq_lt : compare a b = .lt ↔ a < b := Std.compare_eq_lt (a := a.bits) (b := b.bits)

theorem compare_eq_gt : compare a b = .gt ↔ b < a := Std.compare_eq_gt (a := a.bits) (b := b.bits)

theorem le_refl (a : Necessity) : a ≤ a := UInt64.le_refl a.bits

theorem le_trans (hab : a ≤ b) (hbc : b ≤ c) : a ≤ c := UInt64.le_trans hab hbc

theorem lt_trans (hab : a < b) (hbc : b < c) : a < c := UInt64.lt_trans hab hbc

theorem le_of_lt (h : a < b) : a ≤ b := UInt64.le_of_lt h

theorem not_lt : ¬ a < b ↔ b ≤ a := UInt64.not_lt

theorem eq_of_not_lt (hab : ¬ a < b) (hba : ¬ b < a) : a = b := by
  have same : a.bits = b.bits := UInt64.le_antisymm (not_lt.1 hba) (not_lt.1 hab)
  cases a
  cases b
  exact congrArg mk same

end Necessity

theorem Groundness.settle_settle {g : Groundness} {b : Bool} (right : (g.settle fun _ => b).1 = b) :
    ((g.settle fun _ => b).2.settle fun _ => b).1 = b := by
  cases g with
  | unknown => cases b <;> rfl
  | ground | nonGround => exact right

namespace Theory

variable {t : Theory} {n m : Necessity} {clauses : ClauseSet} {levels : List Level} {w : World}

/-! ### Ascending levels -/

def Ascending (levels : List Level) : Prop := levels.Pairwise fun k l => k.necessity < l.necessity

theorem necessity_of_mem_addToLevel {l : Level} (h : l ∈ addToLevel n clauses levels) :
    l.necessity = n ∨ ∃ k ∈ levels, k.necessity = l.necessity := by
  induction levels with
  | nil => exact .inl (List.mem_singleton.1 h ▸ rfl)
  | cons k levels ih =>
    rw [addToLevel] at h
    split at h
    · rcases List.mem_cons.1 h with rfl | h
      · exact .inl rfl
      · exact .inr ⟨l, h, rfl⟩
    · rcases List.mem_cons.1 h with rfl | h
      · exact .inl rfl
      · exact .inr ⟨l, List.mem_cons_of_mem k h, rfl⟩
    · rcases List.mem_cons.1 h with rfl | h
      · exact .inr ⟨l, List.mem_cons_self, rfl⟩
      · exact (ih h).imp_right fun ⟨j, hj, same⟩ => ⟨j, List.mem_cons_of_mem k hj, same⟩

theorem Ascending.addToLevel (ascending : Ascending levels) (n : Necessity) (clauses : ClauseSet) :
    Ascending (addToLevel n clauses levels) := by
  induction levels with
  | nil => exact List.pairwise_singleton _ _
  | cons k levels ih =>
    obtain ⟨above, rest⟩ := List.pairwise_cons.1 ascending
    rw [Theory.addToLevel]
    split
    · next lt =>
      have lt : n < k.necessity := Necessity.compare_eq_lt.1 lt
      refine List.pairwise_cons.2 ⟨List.forall_mem_cons.2 ⟨lt, fun l hl => ?_⟩, ascending⟩
      exact Necessity.lt_trans lt (above l hl)
    · next eq =>
      obtain rfl : n = k.necessity := Std.LawfulEqOrd.eq_of_compare eq
      exact List.pairwise_cons.2 ⟨above, rest⟩
    · next gt =>
      refine List.pairwise_cons.2 ⟨fun l hl => ?_, ih rest⟩
      rcases necessity_of_mem_addToLevel hl with same | ⟨j, hj, same⟩
      · rw [same]
        exact Necessity.compare_eq_gt.1 gt
      · rw [← same]
        exact above j hj

theorem Ascending.dropEmpty_map (ascending : Ascending levels) {f : Level → Level}
    (same : ∀ l, (f l).necessity = l.necessity) : Ascending (dropEmpty (levels.map f)) :=
  have kept : Ascending (levels.map f) :=
    List.pairwise_map.2 (ascending.imp fun {k l} lt => by rwa [same, same])
  kept.filter _

/-! ### Regular theories -/

structure Regular (t : Theory) : Prop where
  ascending : Ascending t.levels
  recorded : t.isGround = t.clauses.all Clause.isGround

theorem Regular.of_unknown (ascending : Ascending t.levels) (unknown : t.groundness = .unknown) :
    t.Regular :=
  ⟨ascending, by rw [isGround, unknown]; rfl⟩

theorem regular_default : ({} : Theory).Regular := .of_unknown .nil rfl

namespace Regular

theorem addAll (regular : t.Regular) (clauses : ClauseSet) (n : Necessity) :
    (t.addAll clauses n).Regular := by
  refine .of_unknown ?_ rfl
  rw [Theory.addAll]
  split
  · exact regular.ascending
  · exact regular.ascending.addToLevel n clauses

theorem addRule (regular : t.Regular) (c : Clause) (n : Necessity) : (t.addRule c n).Regular :=
  regular.addAll _ n

theorem addHardRules (regular : t.Regular) (clauses : ClauseSet) : (t.addHardRules clauses).Regular :=
  .of_unknown regular.ascending rfl

theorem addHardRule (regular : t.Regular) (c : Clause) : (t.addHardRule c).Regular :=
  .of_unknown regular.ascending rfl

theorem remove (regular : t.Regular) (c : Clause) (n : Necessity) : (t.remove c n).2.Regular := by
  rw [Theory.remove]
  split
  · exact regular
  · exact .of_unknown (regular.ascending.dropEmpty_map fun l => by split <;> rfl) rfl

theorem removeEverywhere (regular : t.Regular) (c : Clause) : (t.removeEverywhere c).Regular :=
  .of_unknown (regular.ascending.dropEmpty_map fun _ => rfl) rfl

theorem removeHardRule (regular : t.Regular) (c : Clause) : (t.removeHardRule c).2.Regular :=
  .of_unknown regular.ascending rfl

theorem addAtom (regular : t.Regular) (l : Literal) : (t.addAtom l).Regular :=
  .of_unknown regular.ascending rfl

theorem removeFalsified (regular : t.Regular) (evidence : Evidence) :
    (t.removeFalsified evidence).Regular :=
  .of_unknown (regular.ascending.dropEmpty_map fun _ => rfl) rfl

theorem withSettings (regular : t.Regular) (settings : Settings) : (t.withSettings settings).Regular :=
  ⟨regular.ascending, regular.recorded⟩

theorem withCache (regular : t.Regular) : t.withCache.Regular := ⟨regular.ascending, regular.recorded⟩

theorem settle (regular : t.Regular) : t.settle.Regular :=
  ⟨regular.ascending, Groundness.settle_settle regular.recorded⟩

end Regular

theorem regular_ofRules (rules : List (Clause × Necessity)) : (ofRules rules).Regular :=
  List.foldlRecOn rules _ regular_default fun _ regular c _ => regular.addRule c.1 c.2

theorem regular_ofLevels (levels : List Level) : (ofLevels levels).Regular :=
  List.foldlRecOn levels _ regular_default fun _ regular l _ => regular.addAll l.clauses l.necessity

theorem regular_ofStrata (strata : List ClauseSet) : (ofStrata strata).Regular := regular_ofLevels _

theorem regular_ofWeightedStrata {strata : List ClauseSet} {weights : List Necessity}
    (made : ofWeightedStrata strata weights = .ok t) : t.Regular := by
  unfold ofWeightedStrata at made
  split at made
  · cases made
  · cases made
    exact regular_ofLevels _

theorem regular_merge (bottom top : Theory) : (merge bottom top).Regular :=
  (regular_ofStrata _).addHardRules _

theorem groundness_ofLevels (levels : List Level) : (ofLevels levels).groundness = .unknown :=
  List.foldlRecOn (motive := fun t : Theory => t.groundness = .unknown) levels _ rfl fun _ _ _ _ => rfl

theorem regular_withLevels (t : Theory) (levels : List Level) : (t.withLevels levels).Regular :=
  .of_unknown (regular_ofLevels levels).ascending (groundness_ofLevels levels)

/-! ### Cuts -/

theorem mem_unionAll {strata : List ClauseSet} {c : Clause} :
    c ∈ unionAll strata ↔ ∃ s ∈ strata, c ∈ s := by
  induction strata with
  | nil => exact iff_of_false (OrdSet.not_mem_empty c) (by simp)
  | cons s strata ih =>
    have rest : c ∈ strata.foldr (· ∪ ·) ∅ ↔ ∃ s ∈ strata, c ∈ s := ih
    rw [unionAll, List.foldr_cons, OrdSet.mem_union, rest]
    simp only [List.mem_cons, exists_eq_or_imp]

theorem mem_level {c : Clause} : c ∈ t.level n ↔ ∃ l ∈ t.levels, l.necessity = n ∧ c ∈ l.clauses := by
  rw [level, mem_unionAll]
  simp only [List.mem_map, List.mem_filter, decide_eq_true_eq]
  constructor
  · rintro ⟨_, ⟨l, ⟨hl, same⟩, rfl⟩, hc⟩
    exact ⟨l, hl, same, hc⟩
  · rintro ⟨l, hl, same, hc⟩
    exact ⟨_, ⟨l, ⟨hl, same⟩, rfl⟩, hc⟩

theorem mem_cut {c : Clause} :
    c ∈ t.cut n ↔ (∃ l ∈ t.levels, n ≤ l.necessity ∧ c ∈ l.clauses) ∨ c ∈ t.hardRules := by
  rw [cut, OrdSet.mem_union, mem_unionAll]
  refine or_congr_left ?_
  simp only [List.mem_map, List.mem_filter, decide_eq_true_eq]
  constructor
  · rintro ⟨_, ⟨l, ⟨hl, above⟩, rfl⟩, hc⟩
    exact ⟨l, hl, above, hc⟩
  · rintro ⟨l, hl, above, hc⟩
    exact ⟨_, ⟨l, ⟨hl, above⟩, rfl⟩, hc⟩

theorem mem_cut_iff_level {c : Clause} :
    c ∈ t.cut n ↔ (∃ m, n ≤ m ∧ c ∈ t.level m) ∨ c ∈ t.hardRules := by
  simp only [mem_cut, mem_level]
  refine or_congr_left ⟨?_, ?_⟩
  · rintro ⟨l, hl, le, hc⟩
    exact ⟨l.necessity, le, l, hl, rfl, hc⟩
  · rintro ⟨_, le, l, hl, rfl, hc⟩
    exact ⟨l, hl, le, hc⟩

theorem mem_strictCut {c : Clause} :
    c ∈ t.strictCut n ↔ (∃ m, n < m ∧ c ∈ t.level m) ∨ c ∈ t.hardRules := by
  rw [strictCut, OrdSet.mem_union, mem_unionAll]
  refine or_congr_left ?_
  simp only [mem_level, List.mem_map, List.mem_filter, decide_eq_true_eq]
  constructor
  · rintro ⟨_, ⟨l, ⟨hl, above⟩, rfl⟩, hc⟩
    exact ⟨l.necessity, above, l, hl, rfl, hc⟩
  · rintro ⟨_, above, l, hl, rfl, hc⟩
    exact ⟨_, ⟨l, ⟨hl, above⟩, rfl⟩, hc⟩

theorem cut_anti (le : n ≤ m) {c : Clause} (h : c ∈ t.cut m) : c ∈ t.cut n := by
  rw [mem_cut] at h ⊢
  exact h.imp_left fun ⟨l, hl, above, hc⟩ => ⟨l, hl, Necessity.le_trans le above, hc⟩

theorem mem_clauses {c : Clause} : c ∈ t.clauses ↔ (∃ l ∈ t.levels, c ∈ l.clauses) ∨ c ∈ t.hardRules := by
  simp only [clauses, rules, List.mem_append, List.mem_map, List.mem_flatMap, OrdSet.mem_toList]
  simp

theorem mem_clauses_of_mem_cut {c : Clause} (h : c ∈ t.cut n) : c ∈ t.clauses :=
  mem_clauses.2 ((mem_cut.1 h).imp_left fun ⟨l, hl, _, hc⟩ => ⟨l, hl, hc⟩)

end Theory

end Defeasible
