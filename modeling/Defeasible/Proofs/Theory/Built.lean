import Defeasible.Proofs.Theory.Complaint
import Defeasible.Proofs.Theory.Strata
import Defeasible.Theory.Collapse

/-! Theories as they are built: made from rules or strata, changed, cut and simplified, with queries in between
that leave their record of whether the theory is ground. Whatever the history, no level is empty, the levels
ascend, and a record that was left is still right. -/

namespace Defeasible.Theory

inductive Change
  | addRule (c : Clause) (n : Necessity)
  | addAll (clauses : ClauseSet) (n : Necessity)
  | addHardRule (c : Clause)
  | addHardRules (clauses : ClauseSet)
  | remove (c : Clause) (n : Necessity)
  | removeEverywhere (c : Clause)
  | removeHardRule (c : Clause)
  | addAtom (l : Literal)
  | removeFalsified (evidence : Evidence)
  | withSettings (settings : Settings)
  | withCache
  | settle

def Change.apply (t : Theory) : Change → Theory
  | addRule c n => t.addRule c n
  | addAll clauses n => t.addAll clauses n
  | addHardRule c => t.addHardRule c
  | addHardRules clauses => t.addHardRules clauses
  | remove c n => (t.remove c n).2
  | removeEverywhere c => t.removeEverywhere c
  | removeHardRule c => (t.removeHardRule c).2
  | addAtom l => t.addAtom l
  | removeFalsified evidence => t.removeFalsified evidence
  | withSettings settings => t.withSettings settings
  | withCache => t.withCache
  | settle => t.settle

inductive Derivation
  | above (n : Necessity)
  | strictlyAbove (n : Necessity)
  | withoutDrowned
  | simplifyByUnits
  | simplifyByResolution
  | withoutImplied
  | simplifyBySat
  | collapse (maxLiterals : Nat)
  | collapseCounted (maxLiterals : Nat) (count : Counter)

def Derivation.query (t : Theory) : Derivation → Query Theory
  | above n => pure (t.above n)
  | strictlyAbove n => pure (t.strictlyAbove n)
  | withoutDrowned => t.withoutDrowned
  | simplifyByUnits => pure t.simplifyByUnits
  | simplifyByResolution => pure t.simplifyByResolution
  | withoutImplied => t.withoutImplied
  | simplifyBySat => t.simplifyBySat
  | collapse maxLiterals => t.collapse maxLiterals
  | collapseCounted maxLiterals count => t.collapseCounted maxLiterals count

/-- The theories that can come about. A theory stays when another is made from it, and a copy is the theory
itself, with its record. -/
inductive Built : Theory → Prop
  | new : Built {}
  | ofRules (rules : List (Clause × Necessity)) : Built (ofRules rules)
  | ofStrata (strata : List ClauseSet) : Built (ofStrata strata)
  | ofWeightedStrata {t : Theory} {strata : List ClauseSet} {weights : List Necessity}
    (made : ofWeightedStrata strata weights = .ok t) : Built t
  | merge {bottom top : Theory} (builtBottom : Built bottom) (builtTop : Built top) : Built (merge bottom top)
  | change {t : Theory} (built : Built t) (change : Change) : Built (change.apply t)
  | derive {t u : Theory} (built : Built t) (derivation : Derivation) {s s' : Session}
    (run : (derivation.query t).run s = (.ok u, s')) : Built u

structure Kept (t : Theory) : Prop where
  regular : t.Regular
  populated : t.Populated

variable {t u : Theory}

theorem Regular.groundness_eq (regular : t.Regular) :
    t.groundness = .unknown ∨ t.groundness = .ofBool (t.clauses.all Clause.isGround) := by
  have recorded := regular.recorded
  rw [isGround] at recorded
  cases record : t.groundness with
  | unknown => exact .inl rfl
  | ground | nonGround =>
    rw [record] at recorded
    exact .inr (recorded ▸ rfl)

theorem kept_default : ({} : Theory).Kept := ⟨regular_default, populated_default⟩

theorem kept_withLevels (t : Theory) (levels : List Level) : (t.withLevels levels).Kept :=
  ⟨regular_withLevels t levels, populated_withLevels t levels⟩

theorem kept_withSettings_default (settings : Settings) : ({ settings } : Theory).Kept :=
  ⟨regular_default.withSettings settings, populated_default⟩

theorem Kept.change (kept : t.Kept) (change : Change) : (change.apply t).Kept := by
  obtain ⟨regular, populated⟩ := kept
  cases change with
  | addRule c n => exact ⟨regular.addRule c n, populated.addRule c n⟩
  | addAll clauses n => exact ⟨regular.addAll clauses n, populated.addAll clauses n⟩
  | addHardRule c => exact ⟨regular.addHardRule c, populated⟩
  | addHardRules clauses => exact ⟨regular.addHardRules clauses, populated⟩
  | remove c n => exact ⟨regular.remove c n, populated.remove c n⟩
  | removeEverywhere c => exact ⟨regular.removeEverywhere c, populated_removeEverywhere t c⟩
  | removeHardRule c => exact ⟨regular.removeHardRule c, populated⟩
  | addAtom l => exact ⟨regular.addAtom l, populated⟩
  | removeFalsified evidence => exact ⟨regular.removeFalsified evidence, populated_removeFalsified t evidence⟩
  | withSettings settings => exact ⟨regular.withSettings settings, populated⟩
  | withCache => exact ⟨regular.withCache, populated⟩
  | settle => exact ⟨regular.settle, populated⟩

/-! ### Derivations -/

theorem withoutDrowned_kept (kept : t.Kept) : t.withoutDrowned.Yields Kept fun _ => True := by
  refine (Query.Yields.any _).bind fun answer _ => ?_
  cases answer with
  | none => exact .pure (kept_withSettings_default t.settings)
  | some found =>
    dsimp only
    split
    · exact .pure kept
    · exact .pure (kept_withLevels t _)

theorem withoutImplied_kept (t : Theory) : t.withoutImplied.Yields Kept fun _ => True :=
  (Query.Yields.any _).bind fun levels _ => .pure (kept_withLevels t levels)

theorem simplifyBySat_kept (t : Theory) : t.simplifyBySat.Yields Kept fun _ => True :=
  (Query.Yields.any _).bind fun levels _ => .pure (kept_withLevels t levels)

theorem collapseUpTo_kept {maxLiterals fuel : Nat} {counter : Option Counter} {weights : List Necessity}
    (kept : t.Kept) : (collapseUpTo maxLiterals counter fuel t weights).Yields Kept fun _ => True := by
  induction fuel generalizing t weights with
  | zero => exact .pure kept
  | succ fuel ih =>
    rw [collapseUpTo]
    split
    · exact .pure kept
    · split
      · refine (Query.Yields.any _).bind fun merged _ => (Query.Yields.any _).bind fun reweighed _ => ?_
        cases reweighed with
        | none => exact .pure kept
        | some weights => exact ih (kept_withLevels t _)
      · exact .pure kept

theorem Kept.derive (kept : t.Kept) (derivation : Derivation) :
    (derivation.query t).Yields Kept fun _ => True := by
  cases derivation with
  | above n => exact .pure (kept_withLevels t _)
  | strictlyAbove n => exact .pure (kept_withLevels t _)
  | withoutDrowned => exact withoutDrowned_kept kept
  | simplifyByUnits => exact .pure (kept_withLevels t _)
  | simplifyByResolution => exact .pure (kept_withLevels t _)
  | withoutImplied => exact withoutImplied_kept t
  | simplifyBySat => exact simplifyBySat_kept t
  | collapse maxLiterals => exact collapseUpTo_kept kept
  | collapseCounted maxLiterals count => exact collapseUpTo_kept kept

theorem Built.kept (built : t.Built) : t.Kept := by
  induction built with
  | new => exact kept_default
  | ofRules rules => exact ⟨regular_ofRules rules, populated_ofRules rules⟩
  | ofStrata strata => exact ⟨regular_ofStrata strata, populated_ofStrata strata⟩
  | ofWeightedStrata made => exact ⟨regular_ofWeightedStrata made, populated_ofWeightedStrata made⟩
  | merge => exact ⟨regular_merge _ _, populated_merge _ _⟩
  | change _ change kept => exact kept.change change
  | derive _ derivation run kept => exact (kept.derive derivation).of_run run

/-- Whatever was done to a theory before, its levels are in order, and each query that needs the theory to be
ground complains if and only if some clause or hard rule of now is not ground. A tautology is implied in any
case. -/
theorem built_kept (t : Theory) (built : t.Built) :
    (∀ l ∈ t.levels, l.clauses.isEmpty = false) ∧
    t.weights.Pairwise (· < ·) ∧
    (t.groundness = .unknown ∨ t.groundness = .ofBool (t.clauses.all Clause.isGround)) ∧
    t.isGround = t.clauses.all Clause.isGround ∧
    ∀ (s : Session) (evidence : Evidence),
      (∀ n, (t.solveAt n evidence).Complains s ↔ ¬ ∀ c ∈ t.clauses, c.isGround = true) ∧
      ((t.solve evidence).Complains s ↔ ¬ ∀ c ∈ t.clauses, c.isGround = true) ∧
      (∀ c, (t.implies evidence c).Complains s ↔
        c.isTautology = false ∧ ¬ ∀ c ∈ t.clauses, c.isGround = true) ∧
      ((t.mostPlausible evidence).Complains s ↔ ¬ ∀ c ∈ t.clauses, c.isGround = true) ∧
      (t.withoutDrowned.Complains s ↔ ¬ ∀ c ∈ t.clauses, c.isGround = true) := by
  obtain ⟨regular, populated⟩ := built.kept
  have lacking : t.isGround = false ↔ ¬ ∀ c ∈ t.clauses, c.isGround = true := by
    rw [regular.recorded, ← Bool.not_eq_true, List.all_eq_true]
  refine ⟨populated, List.pairwise_map.2 regular.ascending, regular.groundness_eq, regular.recorded,
    fun s evidence => ?_⟩
  rw [← lacking]
  exact ⟨fun n => solveAt_complains t s n evidence, solve_complains t s evidence,
    fun c => implies_complains t s evidence c, mostPlausible_complains t s evidence, withoutDrowned_complains t s⟩

def generalRule : Clause := .ofList [⟨"bird", [.var "x"], false⟩, ⟨"flies", [.var "x"], true⟩]

def widened : Theory :=
  ((ofStrata [.singleton (.unit ⟨"bird", [.const "tweety"], true⟩)]).settle.addRule generalRule .certain).settle

theorem built_kept_widened :
    widened.groundness = .nonGround ∧ (∀ s, (widened.solve ∅).Complains s) ∧
    (widened.remove generalRule .certain).2.levels.length = 1 ∧
    (widened.remove generalRule .certain).2.isGround = true ∧
    ∀ s, ¬ ((widened.remove generalRule .certain).2.solve ∅).Complains s := by
  have built : widened.Built := .change (.change (.change (.ofStrata _) .settle) (.addRule _ _)) .settle
  have narrowed : (widened.remove generalRule .certain).2.Built := .change built (.remove _ _)
  obtain ⟨-, -, -, -, complaints⟩ := built_kept widened built
  obtain ⟨-, -, -, -, complaints'⟩ := built_kept (widened.remove generalRule .certain).2 narrowed
  refine ⟨by decide +kernel, fun s => (complaints s ∅).2.1.2 (by decide +kernel), by decide +kernel,
    by decide +kernel, fun s => ?_⟩
  rw [(complaints' s ∅).2.1, not_not]
  decide +kernel

end Defeasible.Theory
