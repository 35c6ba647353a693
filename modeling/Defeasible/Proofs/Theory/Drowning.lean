import Defeasible.Proofs.Theory.Consequence
import Defeasible.Proofs.Theory.Strata
import Defeasible.Theory.Drowning

/-! Theories without their drowned levels. Levels that are drowned before there is any evidence are drowned
under all evidence, so nothing is lost with them, and what is left has no drowned levels. Where everything is
drowned the hard rules go as well, and more is implied than before. -/

namespace Defeasible.Theory

variable {t u : Theory} {E : Error → Prop} {evidence : Evidence} {n m : Necessity} {w : World} {c : Clause}

/-! ### Above the preferred level -/

theorem levels_above (regular : t.Regular) (populated : t.Populated) :
    (t.above n).levels = t.levels.filter fun l => n ≤ l.necessity := by
  refine levels_ofLevels (regular.ascending.filter _) fun l hl => ?_
  exact populated l (List.mem_filter.1 hl).1

section Above

variable (regular : t.Regular) (populated : t.Populated)

include regular populated

theorem mem_cut_above (le : n ≤ m) : c ∈ (t.above n).cut m ↔ c ∈ t.cut m := by
  simp only [mem_cut, levels_above regular populated, List.mem_filter, decide_eq_true_eq]
  refine or_congr_left (exists_congr fun l => and_congr_left fun ⟨above, _⟩ => ?_)
  exact and_iff_left (Necessity.le_trans le above)

theorem modelAt_above (le : n ≤ m) : (t.above n).ModelAt m evidence w ↔ t.ModelAt m evidence w := by
  have cut (c : Clause) : c ∈ (t.above n).cut m ↔ c ∈ t.cut m := mem_cut_above regular populated le
  constructor
  · exact fun model => ⟨fun c hc => model.cut c ((cut c).2 hc), model.evidence⟩
  · exact fun model => ⟨fun c hc => model.cut c ((cut c).1 hc), model.evidence⟩

theorem weights_above : (t.above n).weights = t.weights.filter fun m => n ≤ m := by
  rw [weights, levels_above regular populated, weights, List.filter_map]
  rfl

theorem mem_degrees_above (mem : n ∈ t.degrees) : m ∈ (t.above n).degrees ↔ m ∈ t.degrees ∧ n ≤ m := by
  rw [degrees] at mem
  rw [degrees, degrees, weights_above regular populated]
  cases none : t.weights.isEmpty with
  | true =>
    rw [none, if_pos rfl, List.mem_singleton] at mem
    rw [List.isEmpty_iff.1 none, List.filter_nil, if_pos List.isEmpty_nil, if_pos rfl, List.mem_singleton, mem]
    exact (and_iff_left_of_imp fun same => same ▸ Necessity.le_refl m).symm
  | false =>
    rw [none, if_neg Bool.false_ne_true] at mem
    have some : n ∈ t.weights.filter fun m => n ≤ m :=
      List.mem_filter.2 ⟨mem, decide_eq_true (Necessity.le_refl n)⟩
    rw [if_neg (by simp [List.isEmpty_iff, List.ne_nil_of_mem some]), if_neg Bool.false_ne_true,
      List.mem_filter, decide_eq_true_eq]

variable {base : Evidence} (preferred : t.Preferred base n) (lower : ∀ l ∈ base, l ∈ evidence)

include preferred lower

theorem preferred_above : (t.above n).Preferred evidence m ↔ t.Preferred evidence m := by
  have degree (k : Necessity) : k ∈ (t.above n).degrees ↔ k ∈ t.degrees ∧ n ≤ k :=
    mem_degrees_above regular populated preferred.mem
  have possible (k : Necessity) (le : n ≤ k) : (t.above n).ConsistentAt k evidence ↔ t.ConsistentAt k evidence :=
    exists_congr fun _ => modelAt_above regular populated le
  constructor
  · intro ⟨mem, consistent, lowest⟩
    obtain ⟨mem, le⟩ := (degree m).1 mem
    refine ⟨mem, (possible m le).1 consistent, fun k hk lt consistent => ?_⟩
    have above := preferred.le hk (consistent.of_subset lower)
    exact lowest k ((degree k).2 ⟨hk, above⟩) lt ((possible k above).2 consistent)
  · intro ⟨mem, consistent, lowest⟩
    have le := preferred.le mem (consistent.of_subset lower)
    refine ⟨(degree m).2 ⟨mem, le⟩, (possible m le).2 consistent, fun k hk lt consistent => ?_⟩
    obtain ⟨hk, above⟩ := (degree k).1 hk
    exact lowest k hk lt ((possible k above).1 consistent)

theorem entails_above : (t.above n).Entails evidence c ↔ t.Entails evidence c := by
  refine or_congr_right (exists_congr fun m => ?_)
  rw [preferred_above regular populated preferred lower]
  refine and_congr_right fun later => ?_
  have le := preferred.le later.mem (later.consistent.of_subset lower)
  exact forall_congr' fun w => imp_congr_left (modelAt_above regular populated le)

end Above

/-! ### Without drowned levels -/

theorem of_nothing : ∀ l ∈ (∅ : Evidence), l ∈ evidence := fun l hl => absurd hl (OrdSet.not_mem_empty l)

/-- A theory without its drowned levels, as the preferred level of no evidence has it. -/
inductive Undrowned (t : Theory) : Theory → Prop
  | kept {n : Necessity} (preferred : t.Preferred ∅ n) (lowest : t.minNecessity? = some n) : Undrowned t t
  | above {n : Necessity} (preferred : t.Preferred ∅ n) (higher : t.minNecessity? ≠ some n) :
    Undrowned t (t.above n)
  | none (drowned : ∀ n ∈ t.degrees, ¬ t.ConsistentAt n ∅) : Undrowned t { settings := t.settings }

theorem not_preferred_of_drowned (drowned : ∀ n ∈ t.degrees, ¬ t.ConsistentAt n ∅) :
    ¬ t.Preferred evidence n := fun preferred =>
  drowned n preferred.mem (preferred.consistent.of_subset of_nothing)

theorem entails_of_drowned (drowned : ∀ n ∈ t.degrees, ¬ t.ConsistentAt n ∅) :
    t.Entails evidence c ↔ ∀ w, c.Holds w :=
  or_iff_left fun ⟨_, preferred, _⟩ => not_preferred_of_drowned drowned preferred

theorem entails_of_no_rules (levels : t.levels = []) (hardRules : t.hardRules = ∅) :
    t.Entails evidence c ↔ (∀ w, c.Holds w) ∨
      (∃ w : World, ∀ l ∈ evidence, l.Holds w) ∧ ∀ w : World, (∀ l ∈ evidence, l.Holds w) → c.Holds w := by
  have degrees := degrees_of_empty levels
  have model (w : World) : t.ModelAt .certain evidence w ↔ ∀ l ∈ evidence, l.Holds w := by
    refine ⟨ModelAt.evidence, fun holds => ⟨fun c hc => ?_, holds⟩⟩
    simp [mem_cut, levels, hardRules, OrdSet.not_mem_empty] at hc
  have preferred (possible : ∃ w, ∀ l ∈ evidence, l.Holds w) : t.Preferred evidence .certain := by
    refine ⟨degrees ▸ List.mem_singleton_self _, possible.imp fun w => (model w).2, fun m hm lt => ?_⟩
    rw [degrees, List.mem_singleton] at hm
    exact absurd (hm ▸ lt) (Necessity.not_lt.2 (Necessity.le_refl _))
  refine or_congr_right ⟨fun ⟨n, preferred', holds⟩ => ?_, fun ⟨possible, holds⟩ => ?_⟩
  · obtain rfl : n = .certain := List.mem_singleton.1 (degrees ▸ preferred'.mem)
    exact ⟨preferred'.consistent.imp fun w => (model w).1, fun w evident => holds w ((model w).2 evident)⟩
  · exact ⟨.certain, preferred possible, fun w evident => holds w ((model w).1 evident)⟩

namespace Undrowned

theorem settings_eq (undrowned : t.Undrowned u) : u.settings = t.settings := by
  cases undrowned <;> rfl

theorem unique {u' : Theory} (undrowned : t.Undrowned u) (undrowned' : t.Undrowned u') : u = u' := by
  cases undrowned with
  | kept preferred lowest =>
    cases undrowned' with
    | kept _ _ => rfl
    | above preferred' higher => exact absurd (preferred.unique preferred' ▸ lowest) higher
    | none drowned => exact absurd preferred (not_preferred_of_drowned drowned)
  | above preferred higher =>
    cases undrowned' with
    | kept preferred' lowest => exact absurd (preferred.unique preferred' ▸ lowest) higher
    | above preferred' _ => rw [preferred.unique preferred']
    | none drowned => exact absurd preferred (not_preferred_of_drowned drowned)
  | none drowned =>
    cases undrowned' with
    | kept preferred' _ => exact absurd preferred' (not_preferred_of_drowned drowned)
    | above preferred' _ => exact absurd preferred' (not_preferred_of_drowned drowned)
    | none _ => rfl

theorem drowned (undrowned : t.Undrowned u) (none : ∀ n, ¬ t.Preferred ∅ n) :
    (∀ n ∈ t.degrees, ¬ t.ConsistentAt n ∅) ∧ u = { settings := t.settings } := by
  cases undrowned with
  | kept preferred _ => exact absurd preferred (none _)
  | above preferred _ => exact absurd preferred (none _)
  | none drowned => exact ⟨drowned, rfl⟩

theorem regular (undrowned : t.Undrowned u) (regular : t.Regular) : u.Regular := by
  cases undrowned with
  | kept _ _ => exact regular
  | above _ _ => exact regular_withLevels t _
  | none _ => exact regular_default.withSettings t.settings

section Made

variable (undrowned : t.Undrowned u) (regular : t.Regular) (populated : t.Populated)

include undrowned regular populated

theorem mem_clauses (mem : c ∈ u.clauses) : c ∈ t.clauses := by
  cases undrowned with
  | kept _ _ => exact mem
  | above _ _ =>
    rw [Theory.mem_clauses, levels_above regular populated] at mem
    exact Theory.mem_clauses.2 (mem.imp_left fun ⟨l, hl, hc⟩ => ⟨l, (List.mem_filter.1 hl).1, hc⟩)
  | none _ => cases mem

theorem entails (entails : t.Entails evidence c) : u.Entails evidence c := by
  cases undrowned with
  | kept _ _ => exact entails
  | above preferred _ => exact (entails_above regular populated preferred of_nothing).2 entails
  | none drowned =>
    rcases entails with always | ⟨n, preferred, -⟩
    · exact .inl always
    · exact absurd preferred (not_preferred_of_drowned drowned)

theorem entails_iff (preferred : t.Preferred ∅ n) : u.Entails evidence c ↔ t.Entails evidence c := by
  cases undrowned with
  | kept _ _ => exact Iff.rfl
  | above preferred _ => exact entails_above regular populated preferred of_nothing
  | none drowned => exact absurd preferred (not_preferred_of_drowned drowned)

end Made

end Undrowned

theorem exists_undrowned (t : Theory) : ∃ u, t.Undrowned u := by
  by_cases preferred : ∃ n, t.Preferred ∅ n
  · obtain ⟨n, preferred⟩ := preferred
    by_cases lowest : t.minNecessity? = some n
    · exact ⟨t, .kept preferred lowest⟩
    · exact ⟨t.above n, .above preferred lowest⟩
  · exact ⟨_, .none fun n hn consistent => preferred (exists_preferred hn consistent)⟩

theorem withoutDrowned_meets (regular : t.Regular) (ground : ∀ c ∈ t.clauses, c.isGround = true)
    (solves : t.Solves E) : t.withoutDrowned.Meets t.Undrowned E := by
  have nothing : ∀ l ∈ (∅ : Evidence), l.isGround = true := fun l hl => absurd hl (OrdSet.not_mem_empty l)
  refine (solve_meets regular ground solves nothing).bind fun answer prefers => ?_
  cases answer with
  | none => exact .pure (.none prefers)
  | some found =>
    refine .pure ?_
    split
    · next lowest => exact .kept prefers.1 lowest
    · next higher => exact .above prefers.1 higher

/-! ### Nothing drowns twice -/

theorem getD_minNecessity? (ascending : Ascending t.levels) (mem : n ∈ t.degrees)
    (least : ∀ m ∈ t.degrees, n ≤ m) : t.minNecessity?.getD .certain = n := by
  cases empty : t.weights.isEmpty with
  | true =>
    rw [degrees, if_pos empty, List.mem_singleton] at mem
    rw [minNecessity?, List.isEmpty_iff.1 empty, mem]
    rfl
  | false =>
    have weighted : t.degrees = t.weights := if_neg (empty ▸ Bool.false_ne_true)
    rw [weighted] at mem least
    rw [minNecessity?_eq_some ascending mem least]
    rfl

theorem above_above (regular : t.Regular) (populated : t.Populated) (n : Necessity) :
    (t.above n).above n = t.above n := by
  have kept : (t.above n).levels.filter (fun l => n ≤ l.necessity) = (t.above n).levels := by
    rw [levels_above regular populated, List.filter_filter]
    simp only [Bool.and_self]
  rw [above, kept]
  exact withLevels_levels t _

theorem Preferred.above (preferred : t.Preferred evidence n) (regular : t.Regular) (populated : t.Populated) :
    (t.above n).Preferred evidence n ∧ (t.above n).minNecessity?.getD .certain = n := by
  have preferred' : (t.above n).Preferred evidence n :=
    (preferred_above regular populated preferred fun _ mem => mem).2 preferred
  refine ⟨preferred', getD_minNecessity? (regular_withLevels t _).ascending preferred'.mem fun m hm => ?_⟩
  exact ((mem_degrees_above regular populated preferred.mem).1 hm).2

theorem le_of_minNecessity? (ascending : Ascending t.levels) (lowest : t.minNecessity? = some n) :
    ∀ l ∈ t.levels, n ≤ l.necessity := by
  intro l hl
  have pairwise : t.weights.Pairwise (· < ·) := List.pairwise_map.2 ascending
  have mem : l.necessity ∈ t.weights := List.mem_map_of_mem hl
  obtain ⟨rest, weights⟩ := List.head?_eq_some_iff.1 lowest
  rw [weights] at pairwise mem
  rcases List.mem_cons.1 mem with same | later
  · exact same ▸ Necessity.le_refl n
  · exact Necessity.le_of_lt ((List.pairwise_cons.1 pairwise).1 _ later)

theorem undrowned_self (preferred : t.Preferred ∅ n) (same : t.above n = t) : t.Undrowned t := by
  by_cases lowest : t.minNecessity? = some n
  · exact .kept preferred lowest
  · have undrowned := Undrowned.above preferred lowest
    rwa [same] at undrowned

namespace Undrowned

variable (undrowned : t.Undrowned u) (regular : t.Regular) (populated : t.Populated)

include undrowned regular populated

theorem preferred : u.Preferred ∅ (u.minNecessity?.getD .certain) := by
  cases undrowned with
  | kept preferred lowest =>
    rw [lowest]
    exact preferred
  | above preferred _ =>
    obtain ⟨preferred, lowest⟩ := preferred.above regular populated
    rwa [lowest]
  | none _ =>
    refine ⟨List.mem_singleton_self _, ⟨fun _ => false, fun c hc => absurd hc (OrdSet.not_mem_empty c),
      fun l hl => absurd hl (OrdSet.not_mem_empty l)⟩, fun m hm lt _ => ?_⟩
    exact Necessity.not_lt.2 (Necessity.le_refl _) (List.mem_singleton.1 hm ▸ lt)

theorem levels_eq (preferred : t.Preferred ∅ n) : u.levels = t.levels.filter fun l => n ≤ l.necessity := by
  cases undrowned with
  | kept preferred' lowest =>
    obtain rfl := preferred.unique preferred'
    refine (List.filter_eq_self.2 fun l hl => ?_).symm
    exact decide_eq_true (le_of_minNecessity? regular.ascending lowest l hl)
  | above preferred' _ =>
    obtain rfl := preferred.unique preferred'
    exact levels_above regular populated
  | none drowned => exact absurd preferred (not_preferred_of_drowned drowned)

omit regular populated in
theorem hardRules_eq (preferred : t.Preferred ∅ n) : u.hardRules = t.hardRules := by
  cases undrowned with
  | kept _ _ => rfl
  | above _ _ => rfl
  | none drowned => exact absurd preferred (not_preferred_of_drowned drowned)

theorem again : u.Undrowned u := by
  cases undrowned with
  | kept preferred lowest => exact .kept preferred lowest
  | above preferred _ =>
    exact undrowned_self (preferred.above regular populated).1 (above_above regular populated _)
  | none drowned => exact undrowned_self ((none drowned).preferred regular populated) rfl

end Undrowned

/-- What is left without drowned levels is consistent at its lowest necessity, or at certainty if it has no level, so
that nothing more goes the second time. If a level is preferred before there is any evidence, the levels from it on are
left, as they are. -/
theorem withoutDrowned_idempotent (t : Theory) (regular : t.Regular) (populated : t.Populated)
    (ground : ∀ c ∈ t.clauses, c.isGround = true) (probable : t.settings.Probable) :
    ∃ u, t.withoutDrowned.Answers t.settings u ∧
      (u.solve ∅).Meets (fun answer => ∃ witness, answer = some (witness, u.minNecessity?.getD .certain) ∧
        u.ModelAt (u.minNecessity?.getD .certain) ∅ witness.world) t.settings.Hinders ∧
      u.withoutDrowned.Answers t.settings u ∧
      (t.solve ∅).Meets (fun answer => ∀ witness n, answer = some (witness, n) →
        u.hardRules = t.hardRules ∧ u.levels = t.levels.filter fun l => n ≤ l.necessity) t.settings.Hinders := by
  obtain ⟨u, undrowned⟩ := t.exists_undrowned
  have nothing : ∀ l ∈ (∅ : Evidence), l.isGround = true := fun l hl => absurd hl (OrdSet.not_mem_empty l)
  have answers : t.withoutDrowned.Answers t.settings u :=
    (withoutDrowned_meets regular ground (solves_within probable)).answers fun _ found => found.unique undrowned
  have regular' := undrowned.regular regular
  have ground' : ∀ c ∈ u.clauses, c.isGround = true := fun c hc =>
    ground c (undrowned.mem_clauses regular populated hc)
  have solves' : u.Solves t.settings.Hinders := by
    rw [← undrowned.settings_eq] at probable ⊢
    exact solves_within probable
  have again := undrowned.again regular populated
  have preferred := undrowned.preferred regular populated
  refine ⟨u, answers, (solve_meets regular' ground' solves' nothing).imp fun answer prefers => ?_,
    (withoutDrowned_meets regular' ground' solves').answers fun _ found => found.unique again,
    (solve_meets regular ground (solves_within probable) nothing).imp fun answer prefers => ?_⟩
  · cases answer with
    | none => exact absurd preferred.consistent (prefers _ preferred.mem)
    | some found =>
      obtain ⟨witness, n⟩ := found
      obtain rfl := prefers.1.unique preferred
      exact ⟨witness, rfl, prefers.2⟩
  · rintro witness n rfl
    exact ⟨undrowned.hardRules_eq prefers.1, undrowned.levels_eq regular populated prefers.1⟩

def halfDrowned : Theory :=
  ofStrata [.singleton (.unit ⟨"a", [], true⟩), .ofList [.unit ⟨"a", [], false⟩, .unit ⟨"b", [], true⟩],
    .singleton (.unit ⟨"c", [], true⟩)]

theorem withoutDrowned_idempotent_halfDrowned : ∃ u witness s' v' u',
    halfDrowned.withoutDrowned.run {} = (.ok u, s') ∧
    (u.solve ∅).run {} = (.ok (some (witness, .ofLevel 1 3)), v') ∧
    u.withoutDrowned.run {} = (.ok u, u') ∧
    u.levels = halfDrowned.levels.filter fun l => .ofLevel 1 3 ≤ l.necessity := by
  have truthful : ({} : Session).Truthful := Session.truthful_new _
  obtain ⟨u, answer, solved, again, left⟩ := withoutDrowned_idempotent halfDrowned (regular_ofStrata _)
    (populated_ofStrata _) (by decide +kernel) Settings.probable_default
  obtain ⟨s', run, -⟩ := answer.run rfl truthful
  obtain ⟨_, v', solved, -, witness, rfl, -⟩ := (solved.unhindered rfl).result truthful
  obtain ⟨u', again, -⟩ := again.run rfl truthful
  have lowest : (halfDrowned.withoutDrowned.run {}).1.map minNecessity? = .ok (some (.ofLevel 1 3)) := by
    decide +kernel
  rw [run] at lowest
  have lowest : u.minNecessity? = some (.ofLevel 1 3) := Except.ok.inj lowest
  rw [lowest, Option.getD_some] at solved
  have preferred : (halfDrowned.solve ∅).run {} =
      (.ok (some (.ofList [⟨"b", [], true⟩, ⟨"c", [], true⟩], .ofLevel 1 3)), _) :=
    Prod.ext (by decide +kernel) rfl
  exact ⟨u, witness, s', v', u', run, solved, again, (left.of_run truthful preferred _ _ rfl).2⟩

end Defeasible.Theory
