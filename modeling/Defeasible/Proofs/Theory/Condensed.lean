import Defeasible.Proofs.Theory.Redundancy
import Defeasible.Proofs.Theory.Resolution
import Defeasible.Proofs.Theory.Shortening
import Defeasible.Proofs.Theory.UnitPropagation
import Defeasible.Theory.Collapse

/-! All simplifications leave parts of the clauses that a level had, and the models of each cut. Where they are done one
after the other to a single level, what they leave of it says the same as before under the hard rules. -/

namespace Defeasible

theorem Clause.not_tautology_of_subset {c d : Clause} (can_fail : d.isTautology = false) (subset : ∀ l ∈ c, l ∈ d) :
    c.isTautology = false := by
  rw [← Bool.not_eq_true, Clause.isTautology_iff] at can_fail ⊢
  exact fun always => can_fail fun w => (always w).of_subset subset

namespace Theory

variable {t u v : Theory} {E : Error → Prop} {levels : List Level} {clauses : ClauseSet} {c : Clause}
  {n m : Necessity} {w : World}

/-- Whether the clauses of a theory are parts of those that another has at the same necessity, and each cut has the same
models. -/
structure Condensed (u t : Theory) : Prop where
  hardRules : u.hardRules = t.hardRules
  whole : ∀ n, ∀ c ∈ u.level n, ∃ d ∈ t.level n, ∀ l ∈ c, l ∈ d
  models : ∀ n w, (∀ c ∈ u.cut n, c.Holds w) ↔ ∀ c ∈ t.cut n, c.Holds w

namespace Condensed

theorem trans (condensed : v.Condensed u) (condensed' : u.Condensed t) : v.Condensed t := by
  refine ⟨condensed.hardRules.trans condensed'.hardRules, fun n c hc => ?_, fun n w => ?_⟩
  · obtain ⟨d, hd, subset⟩ := condensed.whole n c hc
    exact (condensed'.whole n d hd).imp fun e h => ⟨h.1, fun l hl => h.2 l (subset l hl)⟩
  · exact (condensed.models n w).trans (condensed'.models n w)

variable (condensed : u.Condensed t)

include condensed

theorem ground (ground : ∀ c ∈ t.clauses, c.isGround = true) : ∀ c ∈ u.clauses, c.isGround = true := by
  intro c hc
  rcases mem_clauses_iff_level.1 hc with ⟨n, hc⟩ | hc
  · obtain ⟨d, hd, subset⟩ := condensed.whole n c hc
    exact Clause.ground_of_subset (ground d (mem_clauses_iff_level.2 (.inl ⟨n, hd⟩))) subset
  · exact ground c (mem_clauses_iff_level.2 (.inr (condensed.hardRules ▸ hc)))

theorem can_fail (can_fail : ∀ l ∈ t.levels, ∀ c ∈ l.clauses, c.isTautology = false) :
    ∀ l ∈ u.levels, ∀ c ∈ l.clauses, c.isTautology = false := by
  intro l hl c hc
  obtain ⟨d, hd, subset⟩ := condensed.whole l.necessity c (mem_level.2 ⟨l, hl, rfl, hc⟩)
  obtain ⟨k, hk, -, hd⟩ := mem_level.1 hd
  exact Clause.not_tautology_of_subset (can_fail k hk d hd) subset

end Condensed

/-! ### The simplifications -/

theorem condensed_of_trimmed (trimmed : List.Forall₂ Trimmed levels t.levels)
    (models : ∀ n w, (∀ c ∈ (t.withLevels levels).cut n, c.Holds w) ↔ ∀ c ∈ t.cut n, c.Holds w) :
    (t.withLevels levels).Condensed t := by
  refine ⟨rfl, fun n c hc => ?_, models⟩
  obtain ⟨k, hk, rfl, mem⟩ := mem_level_ofLevels.1 hc
  obtain ⟨l, hl, trimmed⟩ := exists_of_mem_left trimmed k hk
  exact (trimmed.clauses.whole c mem).imp fun d h => ⟨mem_level.2 ⟨l, hl, trimmed.necessity.symm, h.1⟩, h.2⟩

theorem condensed_simplifyByUnits (regular : t.Regular) (populated : t.Populated) : t.simplifyByUnits.Condensed t :=
  condensed_of_trimmed t.trimmed_unitLevels (equivalent_simplifyByUnits regular populated).models

theorem condensed_simplifyByResolution (regular : t.Regular) (populated : t.Populated)
    (can_fail : ∀ l ∈ t.levels, ∀ c ∈ l.clauses, c.isTautology = false) : t.simplifyByResolution.Condensed t :=
  condensed_of_trimmed t.trimmed_resolvedLevels (equivalent_simplifyByResolution regular populated can_fail).models

theorem condensed_pruneLevels (ascending : Ascending t.levels) : t.pruneLevels.Condensed t :=
  ⟨rfl, fun n c hc => ⟨c, (prunes_pruneLevels ascending n).subset c hc, fun _ => id⟩,
    (levelwise_pruneLevels ascending).cut_iff⟩

theorem condensed_tightenLevels (ascending : Ascending t.levels) : t.tightenLevels.Condensed t :=
  condensed_of_trimmed (trimmed_tightened t) (levelwise_tightenLevels ascending).cut_iff

/-! ### A single level -/

section Single

variable (single : ∀ m, ∀ c ∈ t.level m, m = n)

include single

theorem headD_strata (ascending : Ascending t.levels) (populated : t.Populated) :
    t.strata.headD ∅ = t.level n := by
  have only (l : Level) (hl : l ∈ t.levels) : l.necessity = n := by
    obtain ⟨c, hc⟩ := (mem_weights_iff_level populated).1 (List.mem_map_of_mem hl)
    exact single _ c hc
  rw [strata]
  rcases levels : t.levels with _ | ⟨l, rest⟩
  · refine (level_eq_empty ?_).symm
    rw [weights, levels]
    exact List.not_mem_nil
  · have mem : l ∈ t.levels := levels ▸ List.mem_cons_self
    have level := level_eq ascending mem
    rw [only l mem] at level
    exact level.symm

theorem forall_cut_single : (∀ c ∈ t.cut n, c.Holds w) ↔
    (∀ c ∈ t.level n, c.Holds w) ∧ ∀ c ∈ t.hardRules, c.Holds w := by
  rw [forall_cut]
  refine and_congr_left fun _ => ⟨fun holds => holds n (Necessity.le_refl n), fun holds m _ c hc => ?_⟩
  obtain rfl := single m c hc
  exact holds c hc

end Single

theorem mem_level_singleton : c ∈ (t.withLevels [⟨n, clauses⟩]).level m ↔ m = n ∧ c ∈ clauses := by
  refine mem_level_ofLevels.trans ?_
  simp only [List.mem_singleton, exists_eq_left, eq_comm]

def resolvedLevel (t : Theory) (clauses : ClauseSet) : Theory :=
  (t.withLevels [⟨.certain, clauses⟩]).simplifyByUnits.simplifyByResolution

noncomputable def condensedLevel (t : Theory) (clauses : ClauseSet) : ClauseSet :=
  (t.resolvedLevel clauses).pruneLevels.tightenLevels.strata.headD ∅

theorem Solves.withLevels (solves : t.Solves E) (levels : List Level) : (t.withLevels levels).Solves E := solves

section Merged

variable (can_fail : ∀ c ∈ clauses, c.isTautology = false)

include can_fail

theorem condensed_resolvedLevel : (t.resolvedLevel clauses).Condensed (t.withLevels [⟨.certain, clauses⟩]) := by
  have can_fail : ∀ l ∈ (t.withLevels [⟨.certain, clauses⟩]).levels, ∀ c ∈ l.clauses, c.isTautology = false := by
    intro l hl c hc
    exact can_fail c (mem_level_singleton.1 (mem_level.2 ⟨l, hl, rfl, hc⟩)).2
  have units := condensed_simplifyByUnits (regular_withLevels t [⟨.certain, clauses⟩]) (populated_withLevels t _)
  exact (condensed_simplifyByResolution (regular_withLevels _ _) (populated_withLevels _ _)
    (units.can_fail can_fail)).trans units

theorem condensed_tightened : (t.resolvedLevel clauses).pruneLevels.tightenLevels.Condensed
    (t.withLevels [⟨.certain, clauses⟩]) := by
  have pruned := condensed_pruneLevels (regular_withLevels _ _ : (t.resolvedLevel clauses).Regular).ascending
  have tightened :=
    condensed_tightenLevels (regular_withLevels _ _ : (t.resolvedLevel clauses).pruneLevels.Regular).ascending
  exact (tightened.trans pruned).trans (condensed_resolvedLevel can_fail)

theorem condensedLevel_eq :
    t.condensedLevel clauses = (t.resolvedLevel clauses).pruneLevels.tightenLevels.level .certain := by
  refine headD_strata (fun m c hc => ?_) (regular_withLevels (t.resolvedLevel clauses).pruneLevels _).ascending
    (populated_withLevels (t.resolvedLevel clauses).pruneLevels _)
  obtain ⟨d, hd, -⟩ := (condensed_tightened can_fail).whole m c hc
  exact (mem_level_singleton.1 hd).1

theorem whole_condensedLevel (mem : c ∈ t.condensedLevel clauses) : ∃ d ∈ clauses, ∀ l ∈ c, l ∈ d := by
  rw [condensedLevel_eq can_fail] at mem
  obtain ⟨d, hd, subset⟩ := (condensed_tightened can_fail).whole _ c mem
  exact ⟨d, (mem_level_singleton.1 hd).2, subset⟩

theorem alike_condensedLevel : AlikeUnder t.hardRules (t.condensedLevel clauses) clauses := by
  intro w hard
  have condensed := condensed_tightened (t := t) can_fail
  have single (m : Necessity) (c : Clause)
      (hc : c ∈ (t.withLevels [⟨.certain, clauses⟩]).level m) : m = .certain := (mem_level_singleton.1 hc).1
  have single' (m : Necessity) (c : Clause)
      (hc : c ∈ (t.resolvedLevel clauses).pruneLevels.tightenLevels.level m) : m = .certain := by
    obtain ⟨d, hd, -⟩ := condensed.whole m c hc
    exact single m d hd
  have models := condensed.models .certain w
  rw [forall_cut_single single', forall_cut_single single, ← condensedLevel_eq can_fail] at models
  simp only [mem_level_singleton, true_and] at models
  exact (and_iff_left hard).symm.trans (models.trans (and_iff_left hard))

theorem mergedLevel_meets (ground : ∀ c ∈ clauses, c.isGround = true)
    (ground_hard : ∀ c ∈ t.hardRules, c.isGround = true) (solves : t.Solves E) :
    (t.mergedLevel clauses).Meets (· = t.condensedLevel clauses) E := by
  have resolved := condensed_resolvedLevel (t := t) can_fail
  have ground_resolved : ∀ c ∈ (t.resolvedLevel clauses).clauses, c.isGround = true :=
    resolved.ground fun c hc => by
      rcases mem_clauses_iff_level.1 hc with ⟨n, hc⟩ | hc
      · exact ground c (mem_level_singleton.1 hc).2
      · exact ground_hard c hc
  have ascending := (regular_withLevels _ _ : (t.resolvedLevel clauses).Regular).ascending
  have ground_pruned := ground_pruneLevels ascending ground_resolved
  have solves_resolved : (t.resolvedLevel clauses).Solves E :=
    ((solves.withLevels [⟨.certain, clauses⟩]).withLevels _).withLevels _
  have solves_pruned : (t.resolvedLevel clauses).pruneLevels.Solves E := solves_resolved.withLevels _
  unfold mergedLevel
  refine (withoutImplied_meets ground_resolved solves_resolved).bind fun u made => ?_
  rw [made]
  refine (simplifyBySat_meets ground_pruned solves_pruned).bind fun v made => .pure ?_
  rw [made]
  rfl

end Merged

end Theory

end Defeasible
