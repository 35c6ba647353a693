import Defeasible.Proofs.Theory.Condensed
import Mathlib.Data.List.Infix

/-! Levels that are merged until the theory is small enough. A turn takes the two highest levels for one, at the lower
necessity of the two, and drops it if nothing of it is left. So the weights that are handed on may be more than the
levels, but those of the levels come first, and this is enough for the next turn. -/

namespace Defeasible.Theory

open Query (Answers)

/-! ### Turns -/

def mergedLevels (weights : List Necessity) (lower : List ClauseSet) (merged : ClauseSet) : List Level :=
  (weights.zip (lower ++ [merged])).map fun p => ⟨p.1, p.2⟩

abbrev Reweighing := Theory → (second top : ClauseSet) → (weights : List Necessity) → Query (Option (List Necessity))

def collapseBy (reweigh : Reweighing) (maxLiterals : Nat) :
    (fuel : Nat) → Theory → (weights : List Necessity) → Query Theory
  | 0, t, _ => pure t
  | fuel + 1, t, weights =>
    if t.literalCount ≤ maxLiterals then pure t
    else match t.strata.reverse with
    | top :: second :: lower =>
      t.mergedLevel (top ∪ second) >>= fun merged => reweigh t second top weights >>= fun reweighed =>
        reweighed.elim (pure t) fun weights =>
          collapseBy reweigh maxLiterals fuel (t.withLevels (mergedLevels weights lower.reverse merged)) weights
    | _ => pure t

variable {t u v : Theory} {E : Error → Prop} {lower levels : List Level} {second top l : Level} {merged : ClauseSet}
  {weights : List Necessity} {reweigh : Reweighing} {maxLiterals fuel : Nat} {n : Necessity} {w : World}

theorem collapseUpTo_eq (maxLiterals : Nat) (counter : Option Counter) (fuel : Nat) (t : Theory)
    (weights : List Necessity) : collapseUpTo maxLiterals counter fuel t weights =
      collapseBy (fun t => t.mergedWeights counter) maxLiterals fuel t weights := by
  induction fuel generalizing t weights with
  | zero => rfl
  | succ fuel ih =>
    rw [collapseUpTo, collapseBy]
    refine ite_congr rfl (fun _ => rfl) fun _ => ?_
    rcases t.strata.reverse with _ | ⟨top, _ | ⟨second, lower⟩⟩
    · rfl
    · rfl
    · refine congrArg (t.mergedLevel (top ∪ second) >>= ·) (funext fun merged => ?_)
      refine congrArg (t.mergedWeights counter second top weights >>= ·) (funext fun reweighed => ?_)
      cases reweighed with
      | none => rfl
      | some weights => exact ih _ weights

theorem collapseBy_of_done (done : t.literalCount ≤ maxLiterals ∨ t.levels.length ≤ 1) :
    collapseBy reweigh maxLiterals fuel t weights = pure t := by
  cases fuel with
  | zero => rfl
  | succ fuel =>
    rw [collapseBy]
    split
    · rfl
    · next large =>
      have few : t.strata.reverse.length ≤ 1 := by
        rw [List.length_reverse, length_strata]
        exact done.resolve_left large
      split
      · next many =>
        rw [many, List.length_cons, List.length_cons] at few
        omega
      · rfl

theorem reverse_strata (split : t.levels = lower ++ [second, top]) :
    t.strata.reverse = top.clauses :: second.clauses :: (lower.map (·.clauses)).reverse := by
  rw [strata, split, List.map_append, List.reverse_append]
  rfl

theorem collapseBy_succ (large : maxLiterals < t.literalCount) (split : t.levels = lower ++ [second, top]) :
    collapseBy reweigh maxLiterals (fuel + 1) t weights =
      t.mergedLevel (top.clauses ∪ second.clauses) >>= fun merged =>
        reweigh t second.clauses top.clauses weights >>= fun reweighed =>
          reweighed.elim (pure t) fun weights => collapseBy reweigh maxLiterals fuel
            (t.withLevels (mergedLevels weights (lower.map (·.clauses)) merged)) weights := by
  rw [collapseBy, if_neg (Nat.not_le.2 large), reverse_strata split]
  dsimp only
  rw [List.reverse_reverse]

theorem exists_append_pair {α : Type} {as : List α} (two : 1 < as.length) : ∃ init a b, as = init ++ [a, b] := by
  obtain rfl | ⟨rest, b, rfl⟩ := as.eq_nil_or_concat'
  · exact absurd two (Nat.not_lt_zero 1)
  · obtain rfl | ⟨init, a, rfl⟩ := rest.eq_nil_or_concat'
    · exact absurd two (Nat.lt_irrefl 1)
    · exact ⟨init, a, b, List.append_assoc _ _ _⟩

theorem done_or_split (maxLiterals : Nat) (t : Theory) :
    (t.literalCount ≤ maxLiterals ∨ t.levels.length ≤ 1) ∨
      maxLiterals < t.literalCount ∧ ∃ lower second top, t.levels = lower ++ [second, top] := by
  by_cases done : t.literalCount ≤ maxLiterals ∨ t.levels.length ≤ 1
  · exact .inl done
  · obtain ⟨large, many⟩ := not_or.1 done
    exact .inr ⟨Nat.not_le.1 large, exists_append_pair (Nat.not_le.1 many)⟩

theorem length_levels_merged (split : t.levels = lower ++ [second, top]) (weights : List Necessity)
    (merged : ClauseSet) :
    (t.withLevels (mergedLevels weights (lower.map (·.clauses)) merged)).levels.length < t.levels.length := by
  have kept : (t.withLevels (mergedLevels weights (lower.map (·.clauses)) merged)).levels.length ≤
      (mergedLevels weights (lower.map (·.clauses)) merged).length := length_ofLevels_le
  have zipped : (mergedLevels weights (lower.map (·.clauses)) merged).length ≤ lower.length + 1 := by
    rw [mergedLevels, List.length_map, List.length_zip, List.length_append, List.length_map]
    exact Nat.min_le_right _ _
  rw [split, List.length_append]
  exact Nat.lt_succ_of_le (Nat.le_trans kept zipped)

theorem collapseBy_stable (enough : t.levels.length ≤ fuel) (more : Nat) :
    collapseBy reweigh maxLiterals (fuel + more) t weights = collapseBy reweigh maxLiterals fuel t weights := by
  induction fuel generalizing t weights with
  | zero =>
    have done := Or.inr (a := t.literalCount ≤ maxLiterals) (Nat.le_trans enough (Nat.zero_le 1))
    rw [collapseBy_of_done done, collapseBy_of_done done]
  | succ fuel ih =>
    rcases done_or_split maxLiterals t with done | ⟨large, lower, second, top, split⟩
    · rw [collapseBy_of_done done, collapseBy_of_done done]
    · rw [Nat.add_right_comm, collapseBy_succ large split, collapseBy_succ large split]
      refine congrArg (t.mergedLevel (top.clauses ∪ second.clauses) >>= ·) (funext fun merged => ?_)
      refine congrArg (reweigh t second.clauses top.clauses weights >>= ·) (funext fun reweighed => ?_)
      cases reweighed with
      | none => rfl
      | some weights =>
        exact ih (Nat.le_of_lt_succ (Nat.lt_of_lt_of_le (length_levels_merged split weights merged) enough))

/-! ### What is kept -/

theorem dropLast_prefix_dropLast {α : Type} {as bs : List α} (kept : as.dropLast <+: bs)
    (fewer : as.length ≤ bs.length) : as.dropLast <+: bs.dropLast := by
  refine List.prefix_of_prefix_length_le kept (List.dropLast_prefix bs) ?_
  rw [List.length_dropLast, List.length_dropLast]
  exact Nat.sub_le_sub_right fewer 1

theorem dropEmpty_singleton (l : Level) : dropEmpty [l] <+: [l] := by
  rw [dropEmpty, List.filter_singleton]
  cases l.clauses.isEmpty with
  | true => exact List.nil_prefix
  | false => exact List.prefix_rfl

/-- Whether a theory is another with its highest levels taken for one. All below them is as it was. -/
structure Collapsed (u t : Theory) : Prop where
  hardRules : u.hardRules = t.hardRules
  weights : u.weights <+: t.weights
  levels : u.levels.dropLast <+: t.levels
  models : ∀ n ∈ u.weights, ∀ w, (∀ c ∈ u.cut n, c.Holds w) ↔ ∀ c ∈ t.cut n, c.Holds w

namespace Collapsed

theorem refl (t : Theory) : t.Collapsed t :=
  ⟨rfl, List.prefix_rfl, List.dropLast_prefix _, fun _ _ _ => Iff.rfl⟩

theorem trans (collapsed : v.Collapsed u) (collapsed' : u.Collapsed t) : v.Collapsed t := by
  refine ⟨collapsed.hardRules.trans collapsed'.hardRules, collapsed.weights.trans collapsed'.weights, ?_,
    fun n hn w => (collapsed.models n hn w).trans (collapsed'.models n (collapsed.weights.subset hn) w)⟩
  have fewer := collapsed.weights.length_le
  rw [Theory.weights, Theory.weights, List.length_map, List.length_map] at fewer
  exact (dropLast_prefix_dropLast collapsed.levels fewer).trans collapsed'.levels

end Collapsed

theorem mergedLevels_eq (aligned : lower.map (·.necessity) ++ [n] <+: weights) (merged : ClauseSet) :
    mergedLevels weights (lower.map (·.clauses)) merged = lower ++ [⟨n, merged⟩] := by
  obtain ⟨rest, rfl⟩ := aligned
  rw [mergedLevels, List.append_assoc, List.zip_append (by rw [List.length_map, List.length_map]), List.zip_map',
    List.singleton_append, List.zip_cons_cons, List.zip_nil_right, List.map_append, List.map_map]
  exact congrArg (· ++ [_]) (List.map_id lower)

section Merging

variable (regular : t.Regular) (populated : t.Populated) (split : t.levels = lower ++ [second, top])

include regular split

theorem lt_second (hl : l ∈ lower) : l.necessity < second.necessity := by
  have ascending := regular.ascending
  rw [split] at ascending
  exact (List.pairwise_append.1 ascending).2.2 l hl second List.mem_cons_self

theorem second_lt_top : second.necessity < top.necessity := by
  have ascending := regular.ascending
  rw [split] at ascending
  exact List.rel_of_pairwise_cons (List.pairwise_append.1 ascending).2.1 List.mem_cons_self

include populated

theorem levels_merged (above : ∀ l ∈ lower, l.necessity < n) (merged : ClauseSet) :
    (t.withLevels (lower ++ [⟨n, merged⟩])).levels = lower ++ dropEmpty [⟨n, merged⟩] := by
  have ascending := regular.ascending
  rw [split] at ascending
  have ascending : Ascending (lower ++ [⟨n, merged⟩]) :=
    List.pairwise_append.2 ⟨(List.pairwise_append.1 ascending).1, List.pairwise_singleton _ _,
      fun k hk l hl => List.mem_singleton.1 hl ▸ above k hk⟩
  have kept : dropEmpty lower = lower := List.filter_eq_self.2 fun l hl => by
    rw [populated l (split ▸ List.mem_append_left _ hl)]
    rfl
  refine (levels_ofLevels_eq ascending).trans ?_
  rw [dropEmpty, List.filter_append]
  exact congrArg (· ++ _) kept

theorem weights_merged (above : ∀ l ∈ lower, l.necessity < n) (merged : ClauseSet) :
    (t.withLevels (lower ++ [⟨n, merged⟩])).weights <+: lower.map (·.necessity) ++ [n] := by
  rw [weights, levels_merged regular populated split above, List.map_append, List.prefix_append_right_inj]
  exact (dropEmpty_singleton _).map _

theorem collapsed_merged (alike : AlikeUnder t.hardRules merged (top.clauses ∪ second.clauses)) :
    (t.withLevels (lower ++ [⟨second.necessity, merged⟩])).Collapsed t := by
  have above (l : Level) (hl : l ∈ lower) := lt_second regular split hl
  have weights_merged := weights_merged regular populated split above merged
  refine ⟨rfl, weights_merged.trans ⟨[top.necessity], ?_⟩, ?_, fun n hn w => ?_⟩
  · rw [weights, split, List.map_append, List.append_assoc]
    rfl
  · have whole := (List.prefix_append_right_inj lower).2 (dropEmpty_singleton ⟨second.necessity, merged⟩)
    have below := dropLast_prefix_dropLast ((List.dropLast_prefix _).trans whole) whole.length_le
    rw [List.dropLast_concat] at below
    rw [levels_merged regular populated split above, split]
    exact below.trans (List.prefix_append lower _)
  · have le : n ≤ second.necessity := by
      rcases List.mem_append.1 (weights_merged.subset hn) with hn | hn
      · obtain ⟨l, hl, rfl⟩ := List.mem_map.1 hn
        exact Necessity.le_of_lt (above l hl)
      · exact List.mem_singleton.1 hn ▸ Necessity.le_refl _
    have le' : n ≤ top.necessity := Necessity.le_trans le (Necessity.le_of_lt (second_lt_top regular split))
    rw [forall_cut_withLevels, forall_cut_levels, split, List.forall_mem_append, List.forall_mem_append]
    refine and_congr_left fun hard => and_congr_right fun _ => ?_
    rw [List.forall_mem_singleton, List.forall_mem_cons, List.forall_mem_singleton, imp_iff_right le,
      imp_iff_right le, imp_iff_right le', and_comm, ← OrdSet.forall_mem_union]
    exact alike w hard

end Merging

/-! ### The whole run -/

structure Mergeable (t : Theory) : Prop where
  regular : t.Regular
  populated : t.Populated
  ground : ∀ c ∈ t.clauses, c.isGround = true
  can_fail : ∀ l ∈ t.levels, ∀ c ∈ l.clauses, c.isTautology = false

section Mergeable

variable (mergeable : t.Mergeable) (split : t.levels = lower ++ [second, top])

include mergeable split

omit mergeable in
theorem forall_mem_highest {P : Clause → Prop} (holds : ∀ l ∈ t.levels, ∀ c ∈ l.clauses, P c) :
    ∀ c ∈ top.clauses ∪ second.clauses, P c := by
  rw [split, List.forall_mem_append, List.forall_mem_cons, List.forall_mem_singleton] at holds
  exact OrdSet.forall_mem_union.2 ⟨holds.2.2, holds.2.1⟩

theorem mergeable_merged (whole : ∀ c ∈ merged, ∃ d ∈ top.clauses ∪ second.clauses, ∀ l ∈ c, l ∈ d) :
    (t.withLevels (lower ++ [⟨second.necessity, merged⟩])).Mergeable := by
  have from_highest : ∀ d ∈ top.clauses ∪ second.clauses, ∃ k ∈ t.levels, d ∈ k.clauses :=
    forall_mem_highest split fun l hl d hd => ⟨l, hl, hd⟩
  have origin (l : Level) (hl : l ∈ (t.withLevels (lower ++ [⟨second.necessity, merged⟩])).levels) (c : Clause)
      (hc : c ∈ l.clauses) : ∃ k ∈ t.levels, ∃ d ∈ k.clauses, ∀ x ∈ c, x ∈ d := by
    obtain ⟨k, hk, hc⟩ := mem_of_mem_ofLevels hl hc
    rcases List.mem_append.1 hk with hk | hk
    · exact ⟨k, split ▸ List.mem_append_left _ hk, c, hc, fun _ => id⟩
    · rw [List.mem_singleton.1 hk] at hc
      obtain ⟨d, hd, subset⟩ := whole c hc
      exact (from_highest d hd).imp fun k h => ⟨h.1, d, h.2, subset⟩
  refine ⟨regular_withLevels t _, populated_withLevels t _, fun c hc => ?_, fun l hl c hc => ?_⟩
  · rcases mem_clauses.1 hc with ⟨l, hl, hc⟩ | hc
    · obtain ⟨k, hk, d, hd, subset⟩ := origin l hl c hc
      exact Clause.ground_of_subset (mergeable.ground d (mem_clauses.2 (.inl ⟨k, hk, hd⟩))) subset
    · exact mergeable.ground c (mem_clauses.2 (.inr hc))
  · obtain ⟨k, hk, d, hd, subset⟩ := origin l hl c hc
    exact Clause.not_tautology_of_subset (mergeable.can_fail k hk d hd) subset

theorem exists_merged (solves : t.Solves E) :
    ∃ merged, (t.mergedLevel (top.clauses ∪ second.clauses)).Meets (· = merged) E ∧
      (t.withLevels (lower ++ [⟨second.necessity, merged⟩])).Mergeable ∧
      (t.withLevels (lower ++ [⟨second.necessity, merged⟩])).Collapsed t := by
  have can_fail := forall_mem_highest split mergeable.can_fail
  have ground : ∀ c ∈ top.clauses ∪ second.clauses, c.isGround = true :=
    forall_mem_highest split fun l hl c hc => mergeable.ground c (mem_clauses.2 (.inl ⟨l, hl, hc⟩))
  have ground_hard (c : Clause) (hc : c ∈ t.hardRules) : c.isGround = true :=
    mergeable.ground c (mem_clauses.2 (.inr hc))
  exact ⟨_, mergedLevel_meets can_fail ground ground_hard solves,
    mergeable_merged mergeable split fun c => whole_condensedLevel can_fail,
    collapsed_merged mergeable.regular mergeable.populated split (alike_condensedLevel can_fail)⟩

omit mergeable in
theorem aligned_dropLast (aligned : t.weights <+: weights) :
    lower.map (·.necessity) ++ [second.necessity] <+: weights.dropLast := by
  obtain ⟨rest, rfl⟩ := aligned
  have weights : t.weights ++ rest = lower.map (·.necessity) ++ [second.necessity] ++ top.necessity :: rest := by
    rw [Theory.weights, split, List.map_append, List.append_assoc, List.append_assoc]
    rfl
  rw [weights, List.dropLast_append_of_ne_nil (List.cons_ne_nil _ _)]
  exact List.prefix_append _ _

end Mergeable

theorem collapseBy_meets (maxLiterals : Nat) (mergeable : t.Mergeable) (solves : t.Solves E)
    (enough : t.levels.length ≤ fuel) (aligned : t.weights <+: weights) :
    ∃ u, (collapseBy (fun t => t.mergedWeights none) maxLiterals fuel t weights).Meets (· = u) E ∧ u.Collapsed t ∧
      (u.literalCount ≤ maxLiterals ∨ u.levels.length ≤ 1) := by
  induction fuel generalizing t weights with
  | zero =>
    have done := Or.inr (a := t.literalCount ≤ maxLiterals) (Nat.le_trans enough (Nat.zero_le 1))
    exact ⟨t, .pure rfl, .refl t, done⟩
  | succ fuel ih =>
    rcases done_or_split maxLiterals t with done | ⟨large, lower, second, top, split⟩
    · rw [collapseBy_of_done done]
      exact ⟨t, .pure rfl, .refl t, done⟩
    · rw [collapseBy_succ large split]
      obtain ⟨merged, made, mergeable', collapsed⟩ := exists_merged mergeable split solves
      have aligned' := aligned_dropLast split aligned
      have levels := mergedLevels_eq aligned' merged
      have above (l : Level) (hl : l ∈ lower) := lt_second mergeable.regular split hl
      have fewer := length_levels_merged split weights.dropLast merged
      rw [levels] at fewer
      obtain ⟨u, answers, collapsed', done⟩ := ih mergeable' (solves.withLevels _)
        (Nat.le_of_lt_succ (Nat.lt_of_lt_of_le fewer enough))
        ((weights_merged mergeable.regular mergeable.populated split above merged).trans aligned')
      refine ⟨u, made.bind fun merged' same => ?_, collapsed'.trans collapsed, done⟩
      rw [mergedWeights, pure_bind, Option.elim_some, same, levels]
      exact answers

/-- Levels are merged until the theory has at most so many literals, or one level, which takes no more turns than there
are levels. The necessities that are left are the lowest ones, and only the highest level that is left has changed. At
each of these necessities the cut has the same models as before. -/
theorem collapse_reaches (t : Theory) (maxLiterals : Nat) (regular : t.Regular) (populated : t.Populated)
    (ground : ∀ c ∈ t.clauses, c.isGround = true)
    (can_fail : ∀ l ∈ t.levels, ∀ c ∈ l.clauses, c.isTautology = false) (probable : t.settings.Probable) :
    (∀ more, collapseUpTo maxLiterals none (t.levels.length + more) t t.weights = t.collapse maxLiterals) ∧
    ∃ u, (t.collapse maxLiterals).Answers t.settings u ∧
      (u.literalCount ≤ maxLiterals ∨ u.levels.length ≤ 1) ∧ u.hardRules = t.hardRules ∧
      u.weights <+: t.weights ∧ u.levels.dropLast <+: t.levels ∧
      ∀ n ∈ u.weights, ∀ w, (∀ c ∈ u.cut n, c.Holds w) ↔ ∀ c ∈ t.cut n, c.Holds w := by
  simp only [collapse, collapseUpTo_eq]
  obtain ⟨u, answers, collapsed, done⟩ := collapseBy_meets maxLiterals
    ⟨regular, populated, ground, can_fail⟩ (solves_within probable) (Nat.le_refl _) List.prefix_rfl
  exact ⟨collapseBy_stable (Nat.le_refl _), u, answers, done, collapsed.hardRules, collapsed.weights,
    collapsed.levels, collapsed.models⟩

def overshadowed : Theory :=
  (ofRules [(.unit ⟨"a", [], true⟩, ⟨0x3fe3800000000000⟩), (.unit ⟨"b", [], true⟩, ⟨0x3fe8000000000000⟩),
    (.unit ⟨"c", [], true⟩, ⟨0x3fec000000000000⟩), (.unit ⟨"c", [], true⟩, ⟨0x3fee000000000000⟩)]).withHardRules
    (.singleton (.unit ⟨"c", [], true⟩))

theorem collapse_reaches_overshadowed : ∃ u s', (overshadowed.collapse 1).run {} = (.ok u, s') ∧
    u.levels = [⟨⟨0x3fe3800000000000⟩, .ofList [.unit ⟨"a", [], true⟩, .unit ⟨"b", [], true⟩]⟩] ∧
    (1 < u.literalCount ∧ u.levels.length ≤ 1) ∧
    ∀ w, (∀ c ∈ u.cut ⟨0x3fe3800000000000⟩, c.Holds w) ↔ ∀ c ∈ overshadowed.cut ⟨0x3fe3800000000000⟩, c.Holds w := by
  have regular : overshadowed.Regular := .of_unknown (regular_ofRules _).ascending rfl
  have can_fail : ∀ l ∈ overshadowed.levels, ∀ c ∈ l.clauses.toList, c.isTautology = false := by decide +kernel
  obtain ⟨-, u, answer, -, -, -, -, models⟩ := collapse_reaches overshadowed 1 regular (populated_ofRules _)
    (by decide +kernel) can_fail Settings.probable_default
  obtain ⟨s', run, -⟩ := answer.run rfl (Session.truthful_new _)
  have levels : ((overshadowed.collapse 1).run {}).1.map Theory.levels =
      .ok [⟨⟨0x3fe3800000000000⟩, .ofList [.unit ⟨"a", [], true⟩, .unit ⟨"b", [], true⟩]⟩] := by decide +kernel
  rw [run] at levels
  have levels := Except.ok.inj levels
  have count : u.literalCount = 2 := by
    rw [literalCount, rules, levels]
    decide +kernel
  refine ⟨u, s', run, levels, ?_, models _ ?_⟩
  · rw [count, levels]
    decide
  · rw [weights, levels]
    exact List.mem_singleton_self _

end Defeasible.Theory
