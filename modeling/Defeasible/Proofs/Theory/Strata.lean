import Defeasible.Proofs.OrdSet
import Defeasible.Proofs.Theory.Basic
import Mathlib.Data.List.Basic
import Mathlib.Data.List.Induction

/-! Theories made from levels. Ascending levels without an empty one are the levels of the theory they make,
and in any case no clause of the theory comes from elsewhere. No operation on theories makes an empty level. -/

namespace Defeasible

def Necessity.Spread (count : Nat) : Prop :=
  ∀ i j, i < j → j < count → Necessity.ofLevel i count < Necessity.ofLevel j count

instance (count : Nat) : Decidable (Necessity.Spread count) :=
  decidable_of_iff (∀ j < count, ∀ i < j, Necessity.ofLevel i count < Necessity.ofLevel j count)
    ⟨fun h i j lt bound => h j bound i lt, fun h j bound i lt => h i j lt bound⟩

theorem Necessity.Spread.le_iff {count i j : Nat} (spread : Necessity.Spread count) (hi : i < count)
    (hj : j < count) : Necessity.ofLevel i count ≤ Necessity.ofLevel j count ↔ i ≤ j := by
  constructor
  · intro le
    by_contra lt
    exact Necessity.not_lt.2 le (spread j i (Nat.lt_of_not_le lt) hi)
  · intro le
    rcases Nat.lt_or_eq_of_le le with lt | rfl
    · exact Necessity.le_of_lt (spread i j lt hj)
    · exact Necessity.le_refl _

namespace Theory

variable {n m : Necessity} {clauses : ClauseSet} {levels : List Level} {strata : List ClauseSet} {c : Clause}

theorem minNecessity?_eq_some {t : Theory} (ascending : Ascending t.levels) (mem : n ∈ t.weights)
    (least : ∀ m ∈ t.weights, n ≤ m) : t.minNecessity? = some n := by
  have pairwise : t.weights.Pairwise (· < ·) := List.pairwise_map.2 ascending
  rw [minNecessity?]
  cases weights : t.weights with
  | nil => rw [weights] at mem; cases mem
  | cons first rest =>
    rw [weights] at pairwise mem least
    rcases List.mem_cons.1 mem with rfl | later
    · rfl
    · have le := least first List.mem_cons_self
      exact absurd ((List.pairwise_cons.1 pairwise).1 n later) (Necessity.not_lt.2 le)

theorem addToLevel_of_lt (above : ∀ l ∈ levels, l.necessity < n) :
    addToLevel n clauses levels = levels ++ [⟨n, clauses⟩] := by
  induction levels with
  | nil => rfl
  | cons l levels ih =>
    rw [addToLevel, Necessity.compare_eq_gt.2 (above l List.mem_cons_self),
      ih fun k hk => above k (List.mem_cons_of_mem l hk)]
    rfl

theorem ofLevels_concat (levels : List Level) (l : Level) :
    ofLevels (levels ++ [l]) = (ofLevels levels).addAll l.clauses l.necessity :=
  List.foldl_append

theorem levels_ofLevels_eq (ascending : Ascending levels) : (ofLevels levels).levels = dropEmpty levels := by
  induction levels using List.reverseRecOn with
  | nil => rfl
  | append_singleton levels l ih =>
    obtain ⟨before, -, above⟩ := List.pairwise_append.1 ascending
    have rest : (ofLevels levels).levels = dropEmpty levels := ih before
    have split : dropEmpty (levels ++ [l]) = dropEmpty levels ++ dropEmpty [l] := List.filter_append ..
    rw [ofLevels_concat, addAll, split, rest]
    dsimp only
    cases empty : l.clauses.isEmpty with
    | true =>
      have last : dropEmpty [l] = [] := List.filter_cons_of_neg (by simp [empty])
      rw [if_pos rfl, last, List.append_nil]
    | false =>
      have last : dropEmpty [l] = [l] := List.filter_cons_of_pos (by simp [empty])
      rw [if_neg Bool.false_ne_true, last]
      exact addToLevel_of_lt fun k hk => above k (List.mem_of_mem_filter hk) l (List.mem_singleton_self l)

theorem levels_ofLevels (ascending : Ascending levels)
    (nonempty : ∀ l ∈ levels, l.clauses.isEmpty = false) : (ofLevels levels).levels = levels :=
  (levels_ofLevels_eq ascending).trans (List.filter_eq_self.2 fun l hl => by rw [nonempty l hl]; rfl)

theorem length_addToLevel_le : (addToLevel n clauses levels).length ≤ levels.length + 1 := by
  induction levels with
  | nil => exact Nat.le_refl _
  | cons k levels ih =>
    rw [addToLevel]
    split
    · exact Nat.le_refl _
    · exact Nat.le_succ _
    · exact Nat.succ_le_succ ih

theorem length_ofLevels_le : (ofLevels levels).levels.length ≤ levels.length := by
  induction levels using List.reverseRecOn with
  | nil => exact Nat.le_refl _
  | append_singleton levels l ih =>
    rw [ofLevels_concat, addAll, List.length_append, List.length_singleton]
    dsimp only
    split
    · exact Nat.le_succ_of_le ih
    · exact Nat.le_trans length_addToLevel_le (Nat.succ_le_succ ih)

theorem mem_addToLevel : (∃ l ∈ addToLevel n clauses levels, l.necessity = m ∧ c ∈ l.clauses) ↔
    (∃ l ∈ levels, l.necessity = m ∧ c ∈ l.clauses) ∨ m = n ∧ c ∈ clauses := by
  induction levels with
  | nil => simp [addToLevel, eq_comm]
  | cons k levels ih =>
    rw [addToLevel]
    split
    · rw [List.exists_mem_cons_iff, or_comm, eq_comm]
    · next same =>
      obtain rfl : n = k.necessity := Std.LawfulEqOrd.eq_of_compare same
      rw [List.exists_mem_cons_iff, List.exists_mem_cons_iff, OrdSet.mem_union, and_or_left, or_right_comm,
        eq_comm (a := m)]
    · rw [List.exists_mem_cons_iff, List.exists_mem_cons_iff, ih, or_assoc]

theorem mem_level_addAll {t : Theory} :
    c ∈ (t.addAll clauses n).level m ↔ c ∈ t.level m ∨ m = n ∧ c ∈ clauses := by
  rw [mem_level, mem_level, addAll]
  dsimp only
  split
  · next none => exact (or_iff_left fun h => OrdSet.isEmpty_iff.1 none c h.2).symm
  · exact mem_addToLevel

theorem mem_of_mem_addToLevel {l : Level} (hl : l ∈ addToLevel n clauses levels) (hc : c ∈ l.clauses) :
    c ∈ clauses ∨ ∃ k ∈ levels, c ∈ k.clauses := by
  rcases mem_addToLevel.1 ⟨l, hl, rfl, hc⟩ with ⟨k, hk, -, hc⟩ | ⟨-, hc⟩
  · exact .inr ⟨k, hk, hc⟩
  · exact .inl hc

theorem mem_of_mem_ofLevels {k : Level} (hk : k ∈ (ofLevels levels).levels) (hc : c ∈ k.clauses) :
    ∃ l ∈ levels, c ∈ l.clauses := by
  induction levels using List.reverseRecOn generalizing k with
  | nil => cases hk
  | append_singleton levels l ih =>
    have older {k : Level} (hk : k ∈ (ofLevels levels).levels) (hc : c ∈ k.clauses) :
        ∃ l' ∈ levels ++ [l], c ∈ l'.clauses :=
      (ih hk hc).imp fun _ h => ⟨List.mem_append_left _ h.1, h.2⟩
    rw [ofLevels_concat, addAll] at hk
    dsimp only at hk
    split at hk
    · exact older hk hc
    · rcases mem_of_mem_addToLevel hk hc with hc | ⟨k, hk, hc⟩
      · exact ⟨l, List.mem_append_right _ (List.mem_singleton_self l), hc⟩
      · exact older hk hc

theorem mem_level_ofLevels : c ∈ (ofLevels levels).level n ↔ ∃ l ∈ levels, l.necessity = n ∧ c ∈ l.clauses := by
  induction levels using List.reverseRecOn with
  | nil => exact iff_of_false (OrdSet.not_mem_empty c) (by simp)
  | append_singleton levels l ih =>
    rw [ofLevels_concat, mem_level_addAll, ih, eq_comm (a := n)]
    simp only [List.mem_append, List.mem_singleton, or_and_right, exists_or, exists_eq_left]

theorem hardRules_ofLevels (levels : List Level) : (ofLevels levels).hardRules = ∅ :=
  List.foldlRecOn (motive := fun t : Theory => t.hardRules = ∅) levels _ rfl fun _ none _ _ => none

theorem mem_of_mem_ofStrata {l : Level} (hl : l ∈ (ofStrata strata).levels) (hc : c ∈ l.clauses) :
    ∃ s ∈ strata, c ∈ s := by
  obtain ⟨k, hk, hc⟩ := mem_of_mem_ofLevels hl hc
  obtain ⟨p, hp, rfl⟩ := List.mem_map.1 hk
  exact ⟨p.1, List.fst_mem_of_mem_zipIdx hp, hc⟩

theorem ascending_zipIdx (spread : Necessity.Spread strata.length) :
    Ascending (strata.zipIdx.map fun p => ⟨.ofLevel p.2 strata.length, p.1⟩) := by
  refine List.pairwise_map.2 (List.pairwise_iff_getElem.2 fun i j hi hj lt => ?_)
  rw [List.length_zipIdx] at hi hj
  simpa using spread i j lt hj

theorem levels_ofStrata (spread : Necessity.Spread strata.length)
    (nonempty : ∀ s ∈ strata, s.isEmpty = false) :
    (ofStrata strata).levels = strata.zipIdx.map fun p => ⟨.ofLevel p.2 strata.length, p.1⟩ := by
  refine levels_ofLevels (ascending_zipIdx spread) fun l hl => ?_
  obtain ⟨p, hp, rfl⟩ := List.mem_map.1 hl
  exact nonempty p.1 (List.fst_mem_of_mem_zipIdx hp)

theorem length_strata (t : Theory) : t.strata.length = t.levels.length := List.length_map ..

/-! ### Populated theories -/

/-- No level is empty. Operations on hard rules, atoms and settings leave the levels as they are. -/
def Populated (t : Theory) : Prop := ∀ l ∈ t.levels, l.clauses.isEmpty = false

theorem mem_weights_iff_level {t : Theory} (populated : t.Populated) : n ∈ t.weights ↔ ∃ c, c ∈ t.level n := by
  simp only [mem_level, weights, List.mem_map]
  constructor
  · rintro ⟨l, hl, rfl⟩
    have some : ¬ ∀ c, ¬ c ∈ l.clauses := by
      rw [← OrdSet.isEmpty_iff, populated l hl]
      exact Bool.false_ne_true
    obtain ⟨c, hc⟩ := not_forall_not.1 some
    exact ⟨c, l, hl, rfl, hc⟩
  · rintro ⟨c, l, hl, same, -⟩
    exact ⟨l, hl, same⟩

theorem isEmpty_of_mem_addToLevel {l : Level} (populated : ∀ l ∈ levels, l.clauses.isEmpty = false)
    (some : clauses.isEmpty = false) (hl : l ∈ addToLevel n clauses levels) : l.clauses.isEmpty = false := by
  induction levels with
  | nil => exact List.mem_singleton.1 hl ▸ some
  | cons k levels ih =>
    obtain ⟨first, rest⟩ := List.forall_mem_cons.1 populated
    rw [addToLevel] at hl
    split at hl
    · rcases List.mem_cons.1 hl with rfl | hl
      · exact some
      · exact populated l hl
    · rcases List.mem_cons.1 hl with rfl | hl
      · rw [← Bool.not_eq_true, OrdSet.isEmpty_iff] at first ⊢
        exact fun none => first fun c hc => none c (OrdSet.mem_union.2 (.inl hc))
      · exact rest l hl
    · rcases List.mem_cons.1 hl with rfl | hl
      · exact first
      · exact ih rest hl

theorem isEmpty_of_mem_dropEmpty {l : Level} (hl : l ∈ dropEmpty levels) : l.clauses.isEmpty = false := by
  simpa using (List.mem_filter.1 hl).2

theorem populated_default : ({} : Theory).Populated := nofun

namespace Populated

variable {t : Theory} (populated : t.Populated)

include populated

theorem addAll (clauses : ClauseSet) (n : Necessity) : (t.addAll clauses n).Populated := by
  unfold Theory.addAll Populated
  dsimp only
  split
  · exact populated
  · next some => exact fun l => isEmpty_of_mem_addToLevel populated (Bool.not_eq_true _ ▸ some)

theorem addRule (c : Clause) (n : Necessity) : (t.addRule c n).Populated := populated.addAll _ n

theorem remove (c : Clause) (n : Necessity) : (t.remove c n).2.Populated := by
  rw [Theory.remove]
  split
  · exact populated
  · exact fun l => isEmpty_of_mem_dropEmpty

end Populated

theorem populated_removeEverywhere (t : Theory) (c : Clause) : (t.removeEverywhere c).Populated :=
  fun _ => isEmpty_of_mem_dropEmpty

theorem populated_removeFalsified (t : Theory) (evidence : Evidence) :
    (t.removeFalsified evidence).Populated :=
  fun _ => isEmpty_of_mem_dropEmpty

theorem populated_ofRules (rules : List (Clause × Necessity)) : (ofRules rules).Populated :=
  List.foldlRecOn rules _ populated_default fun _ populated c _ => populated.addRule c.1 c.2

theorem populated_ofLevels (levels : List Level) : (ofLevels levels).Populated :=
  List.foldlRecOn levels _ populated_default fun _ populated l _ => populated.addAll l.clauses l.necessity

theorem populated_ofStrata (strata : List ClauseSet) : (ofStrata strata).Populated := populated_ofLevels _

theorem populated_ofWeightedStrata {t : Theory} {weights : List Necessity}
    (made : ofWeightedStrata strata weights = .ok t) : t.Populated := by
  unfold ofWeightedStrata at made
  split at made
  · cases made
  · cases made
    exact populated_ofLevels _

theorem populated_merge (bottom top : Theory) : (merge bottom top).Populated := populated_ofStrata _

theorem populated_withLevels (t : Theory) (levels : List Level) : (t.withLevels levels).Populated :=
  populated_ofLevels levels

/-! ### Theories with other levels -/

theorem ofLevels_eq (levels : List Level) : ofLevels levels = { levels := (ofLevels levels).levels } :=
  List.foldlRecOn (motive := fun t : Theory => t = { levels := t.levels }) levels _ rfl
    fun _ same _ _ => by rw [same]; rfl

theorem withLevels_levels (t : Theory) (levels : List Level) :
    (t.withLevels levels).withLevels (t.withLevels levels).levels = t.withLevels levels := by
  have kept : (ofLevels (ofLevels levels).levels).levels = (ofLevels levels).levels :=
    levels_ofLevels (regular_ofLevels levels).ascending (populated_ofLevels levels)
  have same : ofLevels (ofLevels levels).levels = ofLevels levels := by
    rw [ofLevels_eq (ofLevels levels).levels, kept, ← ofLevels_eq]
  exact congrArg (fun u : Theory => { u with hardRules := t.hardRules, cached := t.cached, settings := t.settings })
    same

end Theory

end Defeasible
