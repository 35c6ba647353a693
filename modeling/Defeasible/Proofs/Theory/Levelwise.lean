import Defeasible.Proofs.Ground.World
import Defeasible.Proofs.Theory.Strata
import Mathlib.Data.List.Nodup

/-! Theories that are changed level by level. If each level goes on to say the same in the worlds where all above it
holds, then so does each cut. -/

namespace Defeasible

theorem Necessity.wellFounded_gt : WellFounded fun a b : Necessity => b < a := by
  refine Subrelation.wf (fun {a b} lt => ?_) (measure fun n : Necessity => UInt64.size - n.bits.toNat).wf
  have above : b.bits.toNat < a.bits.toNat := UInt64.lt_iff_toNat_lt.1 lt
  have bound : a.bits.toNat < UInt64.size := a.bits.toNat_lt
  exact Nat.sub_lt_sub_left (Nat.lt_trans above bound) above

section Clauses

variable {c : Clause} {above cs ds es : ClauseSet}

def Clause.FollowsFrom (c : Clause) (clauses : ClauseSet) : Prop := ∀ w, (∀ d ∈ clauses, d.Holds w) → c.Holds w

theorem Clause.FollowsFrom.mono (follows : c.FollowsFrom cs) (subset : ∀ d ∈ cs, d ∈ ds) : c.FollowsFrom ds :=
  fun w models => follows w fun d hd => models d (subset d hd)

def AlikeUnder (above cs ds : ClauseSet) : Prop :=
  ∀ w, (∀ c ∈ above, c.Holds w) → ((∀ c ∈ cs, c.Holds w) ↔ ∀ c ∈ ds, c.Holds w)

namespace AlikeUnder

theorem refl (above cs : ClauseSet) : AlikeUnder above cs cs := fun _ _ => Iff.rfl

theorem trans (alike : AlikeUnder above cs ds) (alike' : AlikeUnder above ds es) : AlikeUnder above cs es :=
  fun w models => (alike w models).trans (alike' w models)

theorem followsFrom_iff (alike : AlikeUnder above cs ds) :
    c.FollowsFrom (cs ∪ above) ↔ c.FollowsFrom (ds ∪ above) := by
  refine forall_congr' fun w => imp_congr_left ?_
  rw [OrdSet.forall_mem_union, OrdSet.forall_mem_union]
  exact and_congr_left (alike w)

end AlikeUnder

end Clauses

namespace Theory

variable {t u : Theory} {n : Necessity} {w : World} {levels : List Level}

theorem forall_cut : (∀ c ∈ t.cut n, c.Holds w) ↔
    (∀ m, n ≤ m → ∀ c ∈ t.level m, c.Holds w) ∧ ∀ c ∈ t.hardRules, c.Holds w := by
  simp only [mem_cut_iff_level, or_imp, forall_and, forall_exists_index, and_imp]
  exact and_congr_left fun _ => ⟨fun h m le c => h c m le, fun h c m le => h m le c⟩

theorem forall_cut_levels : (∀ c ∈ t.cut n, c.Holds w) ↔
    (∀ l ∈ t.levels, n ≤ l.necessity → ∀ c ∈ l.clauses, c.Holds w) ∧ ∀ c ∈ t.hardRules, c.Holds w := by
  simp only [mem_cut, or_imp, forall_and, forall_exists_index, and_imp]
  exact and_congr_left fun _ => ⟨fun h l hl le c hc => h c l hl le hc, fun h c l hl le hc => h l hl le c hc⟩

theorem forall_cut_withLevels : (∀ c ∈ (t.withLevels levels).cut n, c.Holds w) ↔
    (∀ l ∈ levels, n ≤ l.necessity → ∀ c ∈ l.clauses, c.Holds w) ∧ ∀ c ∈ t.hardRules, c.Holds w := by
  have level (m : Necessity) (c : Clause) :
      c ∈ (t.withLevels levels).level m ↔ ∃ l ∈ levels, l.necessity = m ∧ c ∈ l.clauses := mem_level_ofLevels
  rw [forall_cut]
  simp only [level, forall_exists_index, and_imp]
  refine and_congr_left fun _ => ⟨fun h l hl le c hc => h _ le c l hl rfl hc, ?_⟩
  rintro h _ le c l hl rfl hc
  exact h l hl le c hc

theorem forall_strictCut : (∀ c ∈ t.strictCut n, c.Holds w) ↔
    (∀ m, n < m → ∀ c ∈ t.level m, c.Holds w) ∧ ∀ c ∈ t.hardRules, c.Holds w := by
  simp only [mem_strictCut, or_imp, forall_and, forall_exists_index, and_imp]
  exact and_congr_left fun _ => ⟨fun h m lt c => h c m lt, fun h c m lt => h m lt c⟩

/-! ### Levels that say the same -/

/-- Whether the levels of a theory say the same as those of another where all above them holds. -/
structure Levelwise (u t : Theory) : Prop where
  hardRules : u.hardRules = t.hardRules
  level : ∀ n, AlikeUnder (t.strictCut n) (u.level n) (t.level n)

namespace Levelwise

variable (levelwise : u.Levelwise t)

include levelwise

theorem strictCut_iff (n : Necessity) (w : World) :
    (∀ c ∈ u.strictCut n, c.Holds w) ↔ ∀ c ∈ t.strictCut n, c.Holds w := by
  rw [forall_strictCut, forall_strictCut, levelwise.hardRules]
  refine and_congr_left fun hard => ⟨fun holds m => ?_, fun holds m lt => ?_⟩
  · -- From the top down: all above the level holds already.
    induction m using Necessity.wellFounded_gt.induction with
    | _ m ih =>
      intro lt
      have above : ∀ c ∈ t.strictCut m, c.Holds w :=
        forall_strictCut.2 ⟨fun k higher => ih k higher (Necessity.lt_trans lt higher), hard⟩
      exact (levelwise.level m w above).1 (holds m lt)
  · have above : ∀ c ∈ t.strictCut m, c.Holds w :=
      forall_strictCut.2 ⟨fun k higher => holds k (Necessity.lt_trans lt higher), hard⟩
    exact (levelwise.level m w above).2 (holds m lt)

theorem cut_iff (n : Necessity) (w : World) : (∀ c ∈ u.cut n, c.Holds w) ↔ ∀ c ∈ t.cut n, c.Holds w := by
  have split (t : Theory) : (∀ c ∈ t.cut n, c.Holds w) ↔
      (∀ c ∈ t.level n, c.Holds w) ∧ ∀ c ∈ t.strictCut n, c.Holds w := by
    rw [forall_cut, forall_strictCut, ← and_assoc]
    refine and_congr_left fun _ => ⟨fun h => ⟨h n (Necessity.le_refl n), fun m lt => h m (Necessity.le_of_lt lt)⟩, ?_⟩
    rintro ⟨first, above⟩ m le
    by_cases lt : n < m
    · exact above m lt
    · exact Necessity.eq_of_not_lt lt (Necessity.not_lt.2 le) ▸ first
  rw [split u, split t, levelwise.strictCut_iff]
  exact and_congr_left (levelwise.level n w)

theorem followsFrom_iff {c : Clause} {cs : ClauseSet} :
    c.FollowsFrom (cs ∪ u.strictCut n) ↔ c.FollowsFrom (cs ∪ t.strictCut n) := by
  refine forall_congr' fun w => imp_congr_left ?_
  rw [OrdSet.forall_mem_union, OrdSet.forall_mem_union, levelwise.strictCut_iff]

end Levelwise

/-! ### Levels that are made from others -/

theorem Ascending.eq_of_mem (ascending : Ascending levels) {k l : Level} (hk : k ∈ levels) (hl : l ∈ levels)
    (same : k.necessity = l.necessity) : k = l := by
  have nodup : (levels.map (·.necessity)).Nodup := by
    refine List.pairwise_map.2 (ascending.imp fun {k l} lt same => ?_)
    exact Necessity.not_lt.2 (Necessity.le_refl _) (same ▸ lt)
  exact List.inj_on_of_nodup_map nodup hk hl same

theorem level_eq (ascending : Ascending t.levels) {l : Level} (hl : l ∈ t.levels) :
    t.level l.necessity = l.clauses := by
  refine OrdSet.ext fun c => mem_level.trans ⟨?_, fun hc => ⟨l, hl, rfl, hc⟩⟩
  rintro ⟨k, hk, same, hc⟩
  exact ascending.eq_of_mem hk hl same ▸ hc

theorem level_eq_empty (missing : ¬ n ∈ t.weights) : t.level n = ∅ := by
  refine OrdSet.ext fun c => iff_of_false (fun hc => missing ?_) (OrdSet.not_mem_empty c)
  obtain ⟨l, hl, rfl, -⟩ := mem_level.1 hc
  exact List.mem_map_of_mem hl

theorem mem_clauses_iff_level {c : Clause} : c ∈ t.clauses ↔ (∃ n, c ∈ t.level n) ∨ c ∈ t.hardRules := by
  simp only [mem_clauses, mem_level]
  refine or_congr_left ⟨?_, ?_⟩
  · rintro ⟨l, hl, hc⟩
    exact ⟨_, l, hl, rfl, hc⟩
  · rintro ⟨_, l, hl, -, hc⟩
    exact ⟨l, hl, hc⟩

theorem mem_clauses_of_mem_strictCut {c : Clause} (h : c ∈ t.strictCut n) : c ∈ t.clauses :=
  mem_clauses_iff_level.2 ((mem_strictCut.1 h).imp_left (Exists.imp fun _ mem => mem.2))

def mapLevels (t : Theory) (f : Necessity → ClauseSet → ClauseSet) : Theory :=
  t.withLevels (t.levels.map fun l => ⟨l.necessity, f l.necessity l.clauses⟩)

section MapLevels

variable {f : Necessity → ClauseSet → ClauseSet} (ascending : Ascending t.levels)

include ascending

theorem level_mapLevels (nothing : ∀ n, f n ∅ = ∅) (n : Necessity) : (t.mapLevels f).level n = f n (t.level n) := by
  refine OrdSet.ext fun c => mem_level_ofLevels.trans ?_
  simp only [List.mem_map, exists_exists_and_eq_and]
  by_cases mem : n ∈ t.weights
  · obtain ⟨l, hl, rfl⟩ := List.mem_map.1 mem
    rw [level_eq ascending hl]
    refine ⟨?_, fun hc => ⟨l, hl, rfl, hc⟩⟩
    rintro ⟨k, hk, same, hc⟩
    exact ascending.eq_of_mem hk hl same ▸ hc
  · rw [level_eq_empty mem, nothing]
    refine iff_of_false ?_ (OrdSet.not_mem_empty c)
    rintro ⟨k, hk, rfl, -⟩
    exact mem (List.mem_map_of_mem hk)

theorem mapLevels_eq_self (same : ∀ n, f n (t.level n) = t.level n) : t.mapLevels f = t.withLevels t.levels := by
  refine congrArg t.withLevels ((List.map_congr_left fun l hl => ?_).trans (List.map_id _))
  have kept := same l.necessity
  rw [level_eq ascending hl] at kept
  exact congrArg (Level.mk l.necessity) kept

end MapLevels

end Theory

end Defeasible
