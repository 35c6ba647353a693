import Defeasible.Proofs.Extraction.Exploration

/-! Rules that are read off a theory always have a closure. Of the rules that a theory implies, those that
prefer the lowest level are tolerated by the others, so that no ranking gets stuck. The rules that extraction has
found by some length are implied, so it makes no difference what it would do about rules without a closure. -/

namespace Defeasible.Theory

open Query (Answers)

variable {t : Theory} {rules : OrdSet DefaultRule}

theorem tolerant_of_implied (regular : t.Regular) (probable : t.settings.Probable)
    (can_fail : ∀ r ∈ rules, r.consequent.isTautology = false)
    (implied : ∀ r ∈ rules, ∃ s s' : Session, s.Truthful ∧
      (t.implies r.evidence r.consequent).run s = (.ok true, s')) : Tolerant rules := by
  refine tolerant_of_entails (t := t) (fun r hr => ?_) fun r hr always => ?_
  · obtain ⟨s, s', truthful, run⟩ := implied r hr
    have meets : (t.implies r.evidence r.consequent).Meets
        (fun b => b = true ↔ t.Entails r.evidence r.consequent) fun _ => True :=
      (askable_any regular probable).implies_meets (fun _ _ => trivial) fun _ _ => trivial
    exact (meets.of_run truthful run).1 rfl
  · exact Bool.eq_false_iff.1 (can_fail r hr) (Clause.isTautology_iff.2 always)

/-- Rules that a theory implies have a ranking, so extraction from it never lacks a closure: any other query may
stand where it takes rules without a closure to have no strata. -/
theorem implied_ranked (t : Theory) (regular : t.Regular) (probable : t.settings.Probable) :
    (∀ (settings : Settings) (rules : OrdSet DefaultRule), settings.Probable → (∀ r ∈ rules, r.Ground) →
      (∀ r ∈ rules, r.consequent.isTautology = false) →
      (∀ r ∈ rules, ∃ s s' : Session, s.Truthful ∧
        (t.implies r.evidence r.consequent).run s = (.ok true, s')) →
      ∃ ranks, (ranking settings rules).Answers settings (some ranks)) ∧
    ∀ (hardRules : ClauseSet) (maxLength : Nat),
      t.extractOr (pure []) hardRules maxLength = t.extract hardRules maxLength ∧
      ∀ (otherwise : Query (List ClauseSet)) (s : Session), s.Truthful →
        (t.extractOr otherwise hardRules maxLength).run s = (t.extract hardRules maxLength).run s := by
  refine ⟨fun settings rules probable' ground can_fail implied => ?_, fun hardRules maxLength => ?_⟩
  · obtain ⟨ranks, ranked⟩ := exists_ranked ground (tolerant_of_implied regular probable can_fail implied)
    have exact : Ranks rules (some ranks) := ranked
    exact ⟨ranks, (ranking_meets probable' ground).answers fun _ found => found.unique exact⟩
  · exact ⟨t.extractOr_pure hardRules maxLength, fun otherwise s truthful =>
      (extract_follows_any regular probable otherwise maxLength).same s truthful⟩

theorem implied_ranked_penguins :
    (∃ ranks s', (ranking {} birds).run {} = (.ok (some ranks), s')) ∧
      (penguins.extractOr (throw (.theory .nonGround)) ∅ 2).run {} = (penguins.extract ∅ 2).run {} := by
  obtain ⟨ranked, same⟩ := implied_ranked penguins regular_penguins Settings.probable_default
  have implied : ∀ r ∈ birds.toList, ((penguins.implies r.evidence r.consequent).run {}).1 = .ok true := by
    decide +kernel
  obtain ⟨ranks, answers⟩ := ranked {} birds Settings.probable_default (by decide +kernel) (by decide +kernel)
    fun r hr => ⟨{}, _, Session.truthful_new _, Prod.ext (implied r hr) rfl⟩
  obtain ⟨s', run, -⟩ := answers.run rfl (Session.truthful_new _)
  exact ⟨⟨ranks, s', run⟩, (same ∅ 2).2 _ {} (Session.truthful_new _)⟩

end Defeasible.Theory
