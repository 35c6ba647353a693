import Defeasible.Proofs.Theory.Consequence
import Defeasible.Proofs.Theory.Trimmed
import Defeasible.Theory.Resolution

/-! Resolution only shortens clauses, so they say no less. They say no more, as long as the resolvers can fail:
where a clause has lost the negation of a literal, it still has the rest of the resolver. A resolver that
holds this negation itself has no such rest. -/

namespace Defeasible

section Lists

variable {α β : Type} {as : List α} {bs : List β}

theorem mem_zip_reverse {p : α × β} (same : as.length = bs.length) :
    p ∈ as.zip bs.reverse ↔ p ∈ as.reverse.zip bs := by
  have same' : as.length = bs.reverse.length := by rw [List.length_reverse, same]
  rw [← List.mem_reverse, List.zip, List.reverse_zipWith same', List.reverse_reverse]

end Lists

namespace Clause

variable {c d : Clause} {l : Literal} {w : World}

structure Contingent (w : World) (c : Clause) : Prop where
  holds : c.Holds w
  can_fail : c.isTautology = false

theorem Contingent.not_negate_mem (contingent : c.Contingent w) (hl : l ∈ c) : ¬ l.negate ∈ c := by
  intro opposite
  refine Bool.eq_false_iff.1 contingent.can_fail (isTautology_iff.2 fun w => ?_)
  by_cases holds : l.Holds w
  · exact ⟨l, hl, holds⟩
  · exact ⟨l.negate, opposite, Literal.holds_negate.2 holds⟩

theorem Contingent.shorten (contingent : d.Contingent w) (subset : ∀ l ∈ c, l ∈ d) (holds : c.Holds w) :
    c.Contingent w := by
  refine ⟨holds, Bool.eq_false_iff.2 fun always => Bool.eq_false_iff.1 contingent.can_fail ?_⟩
  exact isTautology_iff.2 fun w => (isTautology_iff.1 always w).of_subset subset

end Clause

open Clause (Contingent)

namespace Theory

variable {t : Theory} {resolver c : Clause} {resolvers : List Clause} {l : Literal} {w : World}
  {n : Necessity} {count : Nat} {weights : List Necessity} {levels : List (List Clause)}

/-! ### One clause -/

theorem resolveOn_subset : ∀ m ∈ resolveOn resolver c l, m ∈ c := by
  unfold resolveOn
  split
  · exact fun m hm => (Clause.mem_without.1 hm).1
  · exact fun m => id

theorem resolveAll_subset : ∀ m ∈ resolveAll resolvers c, m ∈ c := by
  unfold resolveAll
  refine List.foldlRecOn (motive := fun d => ∀ m ∈ d, m ∈ c) resolvers _ (fun m => id) fun d subset r _ => ?_
  refine List.foldlRecOn (motive := fun d => ∀ m ∈ d, m ∈ c) r.toList _ subset fun d subset l _ => ?_
  exact fun m hm => subset m (resolveOn_subset m hm)

theorem contingent_resolveOn (able : resolver.Contingent w) (contingent : c.Contingent w) (hl : l ∈ resolver) :
    (resolveOn resolver c l).Contingent w := by
  refine contingent.shorten resolveOn_subset ?_
  unfold resolveOn
  split
  next subsumed =>
    rw [Bool.and_eq_true, OrdSet.isSubset_eq_true] at subsumed
    obtain ⟨m, hm, holds⟩ := contingent.holds
    by_cases same : m = l.negate
    · -- The literal fails, so the resolver holds by another one, which the clause has too.
      obtain ⟨k, hk, holds'⟩ := able.holds
      have other : k ≠ l := by
        rintro rfl
        rw [same] at holds
        exact Literal.holds_negate.1 holds holds'
      refine ⟨k, Clause.mem_without.2 ⟨subsumed.2 k (Clause.mem_without.2 ⟨hk, other⟩), ?_⟩, holds'⟩
      rintro rfl
      exact able.not_negate_mem hl hk
    · exact ⟨m, Clause.mem_without.2 ⟨hm, same⟩, holds⟩
  next => exact contingent.holds

theorem contingent_resolveAll (able : ∀ r ∈ resolvers, r.Contingent w) (contingent : c.Contingent w) :
    (resolveAll resolvers c).Contingent w := by
  unfold resolveAll
  refine List.foldlRecOn resolvers _ contingent fun c contingent r hr => ?_
  exact List.foldlRecOn r.toList _ contingent fun c contingent l hl =>
    contingent_resolveOn (able r hr) contingent hl

/-! ### All levels -/

def Shortens (cs ds : List Clause) : Prop := ∃ f : Clause → Clause, (∀ d, ∀ l ∈ f d, l ∈ d) ∧ cs = ds.map f

theorem shortens_refl (cs : List Clause) : Shortens cs cs := ⟨id, fun _ _ => id, (List.map_id cs).symm⟩

theorem shortens_resolveDown (count : Nat) (levels : List (List Clause)) :
    List.Forall₂ Shortens (resolveDown count levels) levels := by
  induction count generalizing levels with
  | zero => exact List.forall₂_same.2 fun cs _ => shortens_refl cs
  | succ count ih =>
    cases levels with
    | nil => exact .nil
    | cons top levels =>
      refine .cons ⟨resolveAll top, fun _ => resolveAll_subset, rfl⟩ ?_
      refine (List.forall₂_map_right_iff.1 (ih _)).imp fun cs ds shortens => ?_
      obtain ⟨f, subset, rfl⟩ := shortens
      refine ⟨f ∘ resolveAll top, fun d l hl => resolveAll_subset l (subset _ l hl), ?_⟩
      rw [List.map_map]

/-- Levels are resolved by higher ones only, so above any necessity the clauses go on to hold. -/
theorem contingent_resolveDown (descending : weights.Pairwise (· > ·))
    (contingent : ∀ p ∈ weights.zip levels, n ≤ p.1 → ∀ c ∈ p.2, c.Contingent w) :
    ∀ p ∈ weights.zip (resolveDown count levels), n ≤ p.1 → ∀ c ∈ p.2, c.Contingent w := by
  induction count generalizing weights levels with
  | zero => exact contingent
  | succ count ih =>
    rcases levels with _ | ⟨top, levels⟩
    · exact contingent
    rcases weights with _ | ⟨m, weights⟩
    · exact nofun
    obtain ⟨below, descending⟩ := List.pairwise_cons.1 descending
    obtain ⟨first, rest⟩ := List.forall_mem_cons.1 contingent
    rw [resolveDown, List.zip_cons_cons, List.forall_mem_cons]
    by_cases le : n ≤ m
    · refine ⟨fun _ => List.forall_mem_map.2 fun c hc => ?_, ih descending ?_⟩
      · exact contingent_resolveAll (first le) (first le c hc)
      · rw [List.zip_map_right, List.forall_mem_map]
        intro p hp le'
        exact List.forall_mem_map.2 fun c hc => contingent_resolveAll (first le) (rest p hp le' c hc)
    · refine ⟨fun le' => absurd le' le, fun p hp le' => absurd ?_ le⟩
      exact Necessity.le_trans le' (Necessity.le_of_lt (below p.1 (List.of_mem_zip hp).1))

/-! ### The resolved theory -/

structure Shortened (k l : Level) : Prop where
  necessity : k.necessity = l.necessity
  shortens : ∃ f : Clause → Clause, (∀ d, ∀ m ∈ f d, m ∈ d) ∧ ∀ c, c ∈ k.clauses ↔ ∃ d ∈ l.clauses, f d = c

def resolvedLevels (t : Theory) : List Level :=
  (t.weights.zip (resolveDown t.levels.length (t.strata.map OrdSet.toList).reverse).reverse).map
    fun p => ⟨p.1, .ofList p.2⟩

theorem shortened_zip {css : List (List Clause)} {ls : List Level}
    (shortens : List.Forall₂ (fun cs l => Shortens cs l.clauses.toList) css ls) :
    List.Forall₂ Shortened (((ls.map (·.necessity)).zip css).map fun p => ⟨p.1, .ofList p.2⟩) ls := by
  induction shortens with
  | nil => exact .nil
  | cons first _ ih =>
    obtain ⟨f, subset, rfl⟩ := first
    refine .cons ⟨rfl, f, subset, fun c => ?_⟩ ih
    exact OrdSet.mem_ofList.trans List.mem_map

theorem shortened_resolvedLevels (t : Theory) : List.Forall₂ Shortened t.resolvedLevels t.levels := by
  have shortens :=
    List.rel_reverse (shortens_resolveDown t.levels.length (t.strata.map OrdSet.toList).reverse)
  rw [List.reverse_reverse] at shortens
  have shortens := (List.forall₂_map_right_iff (f := OrdSet.toList)).1 shortens
  exact shortened_zip ((List.forall₂_map_right_iff (f := Level.clauses)).1 shortens)

theorem Shortened.trimmed {k l : Level} (shortened : Shortened k l) : Trimmed k l := by
  obtain ⟨f, subset, mem_iff⟩ := shortened.shortens
  refine ⟨shortened.necessity, fun c hc => ?_, fun d hd => ⟨f d, (mem_iff _).2 ⟨d, hd, rfl⟩, subset d⟩⟩
  obtain ⟨d, hd, rfl⟩ := (mem_iff c).1 hc
  exact ⟨d, hd, subset d⟩

theorem trimmed_resolvedLevels (t : Theory) : List.Forall₂ Trimmed t.resolvedLevels t.levels :=
  t.shortened_resolvedLevels.imp fun _ _ => Shortened.trimmed

section Populated

variable (regular : t.Regular) (populated : t.Populated)

include regular populated

theorem levels_simplifyByResolution : t.simplifyByResolution.levels = t.resolvedLevels :=
  levels_of_trimmed t.trimmed_resolvedLevels regular populated

theorem degrees_simplifyByResolution : t.simplifyByResolution.degrees = t.degrees :=
  degrees_of_trimmed t.trimmed_resolvedLevels regular populated

theorem models_of_resolved (models : ∀ c ∈ t.simplifyByResolution.cut n, c.Holds w) :
    ∀ c ∈ t.cut n, c.Holds w :=
  models_of_trimmed t.trimmed_resolvedLevels regular populated models

theorem models_resolved (can_fail : ∀ l ∈ t.levels, n ≤ l.necessity → ∀ c ∈ l.clauses, c.isTautology = false)
    (models : ∀ c ∈ t.cut n, c.Holds w) : ∀ c ∈ t.simplifyByResolution.cut n, c.Holds w := by
  intro c hc
  rw [mem_cut, levels_simplifyByResolution regular populated] at hc
  rcases hc with ⟨k, hk, le, hc⟩ | hc
  · obtain ⟨p, hp, rfl⟩ := List.mem_map.1 hk
    have same_length : t.weights.length =
        (resolveDown t.levels.length (t.strata.map OrdSet.toList).reverse).length := by
      rw [(shortens_resolveDown _ _).length_eq]
      simp [weights, strata]
    have descending : t.weights.reverse.Pairwise (· > ·) :=
      List.pairwise_reverse.2 (List.pairwise_map.2 regular.ascending)
    refine (contingent_resolveDown descending (fun q hq le d hd => ?_) p ((mem_zip_reverse same_length).1 hp)
      le c (OrdSet.mem_ofList.1 hc)).holds
    rw [mem_zip_reverse (by simp [weights, strata]), List.reverse_reverse, weights, strata, List.map_map,
      List.zip_map'] at hq
    obtain ⟨l, hl, rfl⟩ := List.mem_map.1 hq
    exact ⟨models d (mem_cut.2 (.inl ⟨l, hl, le, hd⟩)), can_fail l hl le d hd⟩
  · exact models c (mem_cut.2 (.inr hc))

theorem ground_simplifyByResolution (ground : ∀ c ∈ t.clauses, c.isGround = true) :
    ∀ c ∈ t.simplifyByResolution.clauses, c.isGround = true :=
  ground_of_trimmed t.trimmed_resolvedLevels regular populated ground

theorem equivalent_simplifyByResolution
    (can_fail : ∀ l ∈ t.levels, ∀ c ∈ l.clauses, c.isTautology = false) :
    t.simplifyByResolution.Equivalent t :=
  ⟨degrees_simplifyByResolution regular populated, fun _ _ =>
    ⟨models_of_resolved regular populated, models_resolved regular populated fun l hl _ => can_fail l hl⟩⟩

end Populated

/-- What resolution leaves says no less at any necessity, and no more where all clauses from there on can fail.
Where all clauses can fail, all questions have the same answers. -/
theorem resolution_preserves (t : Theory) (regular : t.Regular) (populated : t.Populated)
    (ground : ∀ c ∈ t.clauses, c.isGround = true) (probable : t.settings.Probable) :
    (∀ n w, (∀ c ∈ t.simplifyByResolution.cut n, c.Holds w) → ∀ c ∈ t.cut n, c.Holds w) ∧
    (∀ n, (∀ l ∈ t.levels, n ≤ l.necessity → ∀ c ∈ l.clauses, c.isTautology = false) →
      ∀ w, (∀ c ∈ t.simplifyByResolution.cut n, c.Holds w) ↔ ∀ c ∈ t.cut n, c.Holds w) ∧
    ((∀ l ∈ t.levels, ∀ c ∈ l.clauses, c.isTautology = false) →
      ∀ evidence : Evidence, (∀ l ∈ evidence, l.isGround = true) →
        (∃ level, (t.preferredLevel evidence).Answers t.settings level ∧
          (t.simplifyByResolution.preferredLevel evidence).Answers t.settings level) ∧
        ∀ c : Clause, c.isGround = true → ∃ b, (t.implies evidence c).Answers t.settings b ∧
          (t.simplifyByResolution.implies evidence c).Answers t.settings b) := by
  classical
  refine ⟨fun n w => models_of_resolved regular populated,
    fun n can_fail w => ⟨models_of_resolved regular populated, models_resolved regular populated can_fail⟩,
    fun can_fail evidence ground_evidence => ?_⟩
  have equivalent := equivalent_simplifyByResolution regular populated can_fail
  have regular' := regular_withLevels t t.resolvedLevels
  have ground' := ground_simplifyByResolution regular populated ground
  obtain ⟨level, level_iff⟩ := t.exists_level evidence
  refine ⟨⟨level, ?_, ?_⟩, fun c ground_consequent => ⟨decide (t.Entails evidence c), ?_, ?_⟩⟩
  · exact preferredLevel_answers regular ground probable ground_evidence level_iff
  · exact preferredLevel_answers regular' ground' probable ground_evidence fun n =>
      (level_iff n).trans equivalent.preferred_iff.symm
  · exact implies_answers regular ground probable ground_evidence ground_consequent decide_eq_true_iff
  · exact implies_answers regular' ground' probable ground_evidence ground_consequent
      (decide_eq_true_iff.trans equivalent.entails_iff.symm)

def shortenable : Theory :=
  ofStrata [.singleton (.ofList [⟨"a", [], false⟩, ⟨"b", [], true⟩, ⟨"c", [], true⟩]),
    .singleton (.ofList [⟨"a", [], true⟩, ⟨"b", [], true⟩])]

theorem resolution_preserves_shortenable :
    shortenable.simplifyByResolution.strata =
      [.singleton (.ofList [⟨"b", [], true⟩, ⟨"c", [], true⟩]),
        .singleton (.ofList [⟨"a", [], true⟩, ⟨"b", [], true⟩])] ∧
    (∀ w, (∀ c ∈ shortenable.simplifyByResolution.cut (.ofLevel 0 2), c.Holds w) ↔
      ∀ c ∈ shortenable.cut (.ofLevel 0 2), c.Holds w) ∧
    ∃ b s' u', (shortenable.implies (.singleton ⟨"c", [], false⟩) (.unit ⟨"b", [], true⟩)).run {} = (.ok b, s') ∧
      (shortenable.simplifyByResolution.implies (.singleton ⟨"c", [], false⟩) (.unit ⟨"b", [], true⟩)).run {} =
        (.ok b, u') := by
  have can_fail : ∀ l ∈ shortenable.levels, ∀ c ∈ l.clauses.toList, c.isTautology = false := by decide +kernel
  obtain ⟨-, same, answers⟩ := resolution_preserves shortenable (regular_ofStrata _) (populated_ofStrata _)
    (by decide +kernel) Settings.probable_default
  obtain ⟨-, implied⟩ := answers can_fail (.singleton ⟨"c", [], false⟩) (by decide +kernel)
  obtain ⟨b, answer, answer'⟩ := implied (.unit ⟨"b", [], true⟩) (by decide +kernel)
  obtain ⟨s', run, -⟩ := answer.run rfl (Session.truthful_new _)
  obtain ⟨u', run', -⟩ := answer'.run rfl (Session.truthful_new _)
  exact ⟨by decide +kernel, same _ fun l hl _ => can_fail l hl, b, s', u', run, run'⟩

def excludedMiddle : Theory :=
  ofRules [(.ofList [⟨"a", [], false⟩, ⟨"a", [], true⟩], ⟨0x3fe0000000000000⟩)]

/-- By itself a tautology is resolved to the empty clause, so no level is left to prefer. -/
theorem resolution_empties_tautology :
    excludedMiddle.isGround = true ∧
    (∀ w, ∀ c ∈ excludedMiddle.cut ⟨0x3fe0000000000000⟩, c.Holds w) ∧
    (∀ w, ¬ ∀ c ∈ excludedMiddle.simplifyByResolution.cut ⟨0x3fe0000000000000⟩, c.Holds w) ∧
    ((excludedMiddle.preferredLevel ∅).run {}).1 = .ok (some ⟨0x3fe0000000000000⟩) ∧
    ((excludedMiddle.simplifyByResolution.preferredLevel ∅).run {}).1 = .ok none := by
  have cut : excludedMiddle.cut ⟨0x3fe0000000000000⟩ =
    .singleton (.ofList [⟨"a", [], false⟩, ⟨"a", [], true⟩]) := by decide +kernel
  have cut' : excludedMiddle.simplifyByResolution.cut ⟨0x3fe0000000000000⟩ = .singleton .empty := by
    decide +kernel
  refine ⟨by decide +kernel, fun w c hc => ?_, fun w models => ?_, by decide +kernel, by decide +kernel⟩
  · rw [cut] at hc
    obtain rfl := OrdSet.mem_singleton.1 hc
    exact Clause.isTautology_iff.1 (by decide +kernel) w
  · rw [cut'] at models
    obtain ⟨l, hl, -⟩ := models .empty (OrdSet.mem_singleton.2 rfl)
    exact OrdSet.not_mem_empty l hl

end Theory

end Defeasible
