import Defeasible.Proofs.Theory.Query

/-! When hard rules are implied. A cut holds the hard rules, but also the most certain level. Evidence has a
preferred level just where it is consistent with both, and only then implies the hard rules. -/

namespace Defeasible.Theory

variable {t : Theory} {evidence : Evidence} {n : Necessity} {w : World}

structure ModelAtTop (t : Theory) (evidence : Evidence) (w : World) : Prop where
  hardRules : ∀ c ∈ t.hardRules, c.Holds w
  evidence : ∀ l ∈ evidence, l.Holds w
  top : ∀ n ∈ t.maxNecessity?, ∀ c ∈ t.level n, c.Holds w

theorem le_of_maxNecessity? (ascending : Ascending t.levels) (max : t.maxNecessity? = some n) :
    n ∈ t.weights ∧ ∀ m ∈ t.weights, m ≤ n := by
  rw [maxNecessity?, List.getLast?_eq_getElem?] at max
  refine ⟨List.mem_of_getElem? max, fun m hm => ?_⟩
  obtain ⟨i, hi, rfl⟩ := List.mem_iff_getElem.1 hm
  rcases Nat.lt_or_eq_of_le (Nat.le_sub_one_of_lt hi) with lt | rfl
  · exact Necessity.le_of_lt (weights_lt ascending lt (List.getElem?_eq_getElem hi) max)
  · rw [List.getElem?_eq_getElem hi] at max
    cases max
    exact Necessity.le_refl _

theorem exists_top (ascending : Ascending t.levels) (evidence : Evidence) :
    ∃ top ∈ t.degrees, (∀ n ∈ t.degrees, n ≤ top) ∧
      ∀ w, t.ModelAt top evidence w ↔ t.ModelAtTop evidence w := by
  cases max : t.maxNecessity? with
  | none =>
    have none : t.levels = [] := List.map_eq_nil_iff.1 (List.getLast?_eq_none_iff.1 max)
    have cut (c : Clause) : c ∈ t.cut .certain ↔ c ∈ t.hardRules := by simp [mem_cut, none]
    rw [degrees_of_empty none]
    refine ⟨.certain, List.mem_singleton_self _, fun n hn => ?_, fun w => ⟨fun model => ?_, fun model => ?_⟩⟩
    · rw [List.mem_singleton.1 hn]
      exact Necessity.le_refl _
    · exact ⟨fun c hc => model.cut c ((cut c).2 hc), model.evidence, by simp [max]⟩
    · exact ⟨fun c hc => model.hardRules c ((cut c).1 hc), model.evidence⟩
  | some top =>
    obtain ⟨mem, above⟩ := le_of_maxNecessity? ascending max
    rw [degrees_of_mem_weights mem]
    refine ⟨top, mem, above, fun w => ⟨fun model => ⟨fun c hc => ?_, model.evidence, ?_⟩, fun model => ?_⟩⟩
    · exact model.cut c (mem_cut.2 (.inr hc))
    · rw [max]
      rintro _ ⟨⟩ c hc
      obtain ⟨l, hl, rfl, inLevel⟩ := mem_level.1 hc
      exact model.cut c (mem_cut.2 (.inl ⟨l, hl, Necessity.le_refl _, inLevel⟩))
    · refine ⟨fun c hc => ?_, model.evidence⟩
      rcases mem_cut.1 hc with ⟨l, hl, le, hc⟩ | hc
      · have same : l.necessity = top :=
          Necessity.eq_of_not_lt (Necessity.not_lt.2 le)
            (Necessity.not_lt.2 (above _ (List.mem_map_of_mem hl)))
        exact model.top top max c (mem_level.2 ⟨l, hl, same, hc⟩)
      · exact model.hardRules c hc

theorem exists_consistent_iff (ascending : Ascending t.levels) :
    (∃ n ∈ t.degrees, t.ConsistentAt n evidence) ↔ ∃ w, t.ModelAtTop evidence w := by
  obtain ⟨top, mem, above, models⟩ := exists_top ascending evidence
  constructor
  · rintro ⟨n, hn, consistent⟩
    obtain ⟨w, model⟩ := consistent.mono (above n hn)
    exact ⟨w, (models w).1 model⟩
  · rintro ⟨w, model⟩
    exact ⟨top, mem, w, (models w).2 model⟩

/-- The preferred level exists just where the hard rules and the most certain level are consistent with the
evidence, and then the hard rules and the evidence are implied. -/
theorem hardRules_implied (t : Theory) (regular : t.Regular) (ground : ∀ c ∈ t.clauses, c.isGround = true)
    (probable : t.settings.Probable) (untimed : t.settings.solveLimit? = none)
    (evidence : Evidence) (ground_evidence : ∀ l ∈ evidence, l.isGround = true)
    (s : Session) (truthful : s.Truthful) :
    (∃ answer s', (t.solve evidence).run s = (.ok answer, s') ∧
      (answer.isSome = true ↔ ∃ w, t.ModelAtTop evidence w)) ∧
    ((∃ w, t.ModelAtTop evidence w) →
      (∀ h ∈ t.hardRules, ∃ s', (t.implies evidence h).run s = (.ok true, s')) ∧
      ∀ l ∈ evidence, ∃ s', (t.impliesLiteral evidence l).run s = (.ok true, s')) := by
  have solves : t.Solves fun _ => False := solves_of_untimed probable untimed
  obtain ⟨answer, s', solved, -, prefers⟩ :=
    (solve_meets regular ground solves ground_evidence).result truthful
  have found_iff : answer.isSome = true ↔ ∃ w, t.ModelAtTop evidence w := by
    rw [← exists_consistent_iff regular.ascending]
    exact prefers.isSome_iff
  refine ⟨⟨answer, s', solved, found_iff⟩, fun possible => ?_⟩
  obtain ⟨found, rfl⟩ := Option.isSome_iff_exists.1 (found_iff.2 possible)
  have implied (c : Clause) (ground_consequent : c.isGround = true)
      (holds : ∀ w, t.ModelAt found.2 evidence w → c.Holds w) :
      ∃ s', (t.implies evidence c).run s = (.ok true, s') := by
    obtain ⟨b, s', run, -, entails⟩ :=
      (implies_meets regular ground solves ground_evidence ground_consequent).result truthful
    obtain rfl := entails.2 (.inr ⟨found.2, prefers.1, holds⟩)
    exact ⟨s', run⟩
  constructor
  · intro h hh
    exact implied h (ground h (mem_clauses.2 (.inr hh))) fun w model => model.cut h (mem_cut.2 (.inr hh))
  · intro l hl
    refine implied (.unit l) ?_ fun w model => Clause.holds_unit.2 (model.evidence l hl)
    exact List.all_eq_true.2 (List.forall_mem_singleton.2 (ground_evidence l hl))

theorem hardRules_implied_penguins :
    ∃ s', (penguins.implies (.singleton ⟨"penguin", [], true⟩)
      (.ofList [⟨"penguin", [], false⟩, ⟨"bird", [], true⟩])).run {} = (.ok true, s') := by
  have top : penguins.maxNecessity? = some (.ofLevel 1 2) := by decide +kernel
  have possible : penguins.ModelAtTop (.singleton ⟨"penguin", [], true⟩) fun p => p.predicate != "flies" :=
    ⟨by decide +kernel, by decide +kernel, by rw [top]; rintro _ ⟨⟩; decide +kernel⟩
  obtain ⟨-, implied⟩ := hardRules_implied penguins regular_penguins (by decide +kernel)
    Settings.probable_default rfl
    (.singleton ⟨"penguin", [], true⟩) (by decide +kernel) {} (Session.truthful_new _)
  exact (implied ⟨_, possible⟩).1 _ (by decide +kernel)

def contradicted : Theory :=
  (ofRules [(.unit ⟨"a", [], false⟩, ⟨0x3fe0000000000000⟩)]).withHardRules
    (.singleton (.ofList [⟨"a", [], false⟩, ⟨"b", [], true⟩]))

/-- With all levels drowned, hard rules are not implied, nor is the evidence. -/
theorem hardRules_drowned :
    contradicted.isGround = true ∧
    (∃ w : World, (∀ h ∈ contradicted.hardRules, h.Holds w) ∧
      ∀ l ∈ (.singleton ⟨"a", [], true⟩ : Evidence), l.Holds w) ∧
    (contradicted.solve (.singleton ⟨"a", [], true⟩)).run {} = (.ok none, { solves := 1 }) ∧
    (contradicted.implies (.singleton ⟨"a", [], true⟩)
      (.ofList [⟨"a", [], false⟩, ⟨"b", [], true⟩])).run {} = (.ok false, { solves := 1 }) ∧
    (contradicted.impliesLiteral (.singleton ⟨"a", [], true⟩) ⟨"a", [], true⟩).run {} =
      (.ok false, { solves := 1 }) :=
  ⟨by decide +kernel, ⟨fun _ => true, by decide +kernel⟩, rfl, rfl, rfl⟩

end Defeasible.Theory
