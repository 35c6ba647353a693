import Defeasible.Proofs.Theory.Consequence
import Defeasible.Proofs.Theory.Levelwise
import Defeasible.Proofs.Theory.Trimmed
import Defeasible.Theory.UnitPropagation
import Mathlib.Algebra.Order.BigOperators.Group.List

/-! Literals that unit clauses exclude can be dropped from the strata below. A round looks at each stratum with those
above it, and as it drops some literal unless it is the last, there is a last round. After it there is nothing to drop,
and from each stratum on the clauses say what they said before. -/

namespace Defeasible

namespace Clause

theorem size_eq_one {c : Clause} : c.size = 1 ↔ ∃ l, c = unit l := by
  refine List.length_eq_one_iff.trans (exists_congr fun l => ⟨fun same => ?_, fun same => same ▸ rfl⟩)
  cases c
  exact congrArg Clause.mk (OrdSet.toList_injective same)

end Clause

namespace Theory

variable {t : Theory} {strata strata' : List ClauseSet} {stratum : ClauseSet} {dropped : LiteralSet} {c : Clause}
  {l : Literal} {n m : Necessity} {w : World} {levels : List Level} {fuel : Nat}

/-! ### Dropped literals -/

theorem mem_dropLiterals : l ∈ dropLiterals dropped c ↔ l ∈ c ∧ ¬ l ∈ dropped := by
  have mem : l ∈ dropLiterals dropped c ↔ l ∈ c ∧ (!dropped.has l) = true := OrdSet.mem_filter
  rw [mem, Bool.not_eq_true', ← Bool.not_eq_true, OrdSet.has_eq_true]

theorem holds_dropLiterals (fails : ∀ l ∈ dropped, ¬ l.Holds w) (holds : c.Holds w) :
    (dropLiterals dropped c).Holds w :=
  holds.imp fun l h => ⟨mem_dropLiterals.2 ⟨h.1, fun excluded => fails l excluded h.2⟩, h.2⟩

theorem dropLiterals_eq_self (none : ∀ l ∈ c, ¬ l ∈ dropped) : dropLiterals dropped c = c := by
  refine congrArg Clause.mk (OrdSet.ext fun l => ?_)
  exact mem_dropLiterals.trans (and_iff_left_of_imp (none l))

def excluded (strata : List ClauseSet) : LiteralSet := negatedUnits (strata.flatMap OrdSet.toList)

theorem mem_excluded : l ∈ excluded strata ↔ ∃ r ∈ strata, Clause.unit l.negate ∈ r := by
  simp only [excluded, negatedUnits, OrdSet.mem_ofList, List.mem_flatMap, List.mem_filter, decide_eq_true_eq,
    Clause.size_eq_one]
  constructor
  · rintro ⟨_, ⟨⟨r, hr, hc⟩, m, rfl⟩, hl⟩
    obtain rfl : l = m.negate := List.mem_singleton.1 hl
    exact ⟨r, hr, (Literal.negate_negate m).symm ▸ hc⟩
  · rintro ⟨r, hr, hc⟩
    exact ⟨_, ⟨⟨r, hr, hc⟩, _, rfl⟩, List.mem_singleton.2 (Literal.negate_negate l).symm⟩

/-! ### One round -/

def withoutLiterals (dropped : LiteralSet) (stratum : ClauseSet) : ClauseSet :=
  .ofList (stratum.toList.map (dropLiterals dropped))

theorem mem_withoutLiterals :
    c ∈ withoutLiterals dropped stratum ↔ ∃ d ∈ stratum, dropLiterals dropped d = c :=
  OrdSet.mem_ofList.trans List.mem_map

theorem propagateUnits_cons (stratum : ClauseSet) (strata : List ClauseSet) :
    propagateUnits (stratum :: strata) =
      (stratum.toList.any (fun c => c.toList.any (excluded (stratum :: strata)).has) || (propagateUnits strata).1,
        withoutLiterals (excluded (stratum :: strata)) stratum :: (propagateUnits strata).2) := rfl

theorem settled_cons : (propagateUnits (stratum :: strata)).1 = false ↔
    (∀ c ∈ stratum, ∀ l ∈ c, ¬ l ∈ excluded (stratum :: strata)) ∧ (propagateUnits strata).1 = false := by
  rw [propagateUnits_cons, Bool.or_eq_false_iff, List.any_eq_false]
  simp only [List.any_eq_true, OrdSet.has_eq_true, not_exists, not_and]
  rfl

theorem propagateUnits_of_settled (settled : (propagateUnits strata).1 = false) :
    (propagateUnits strata).2 = strata := by
  induction strata with
  | nil => rfl
  | cons stratum strata ih =>
    obtain ⟨none, settled⟩ := settled_cons.1 settled
    rw [propagateUnits_cons, ih settled]
    refine congrArg (· :: strata) (OrdSet.ext fun c => mem_withoutLiterals.trans ⟨?_, fun hc => ⟨c, hc, ?_⟩⟩)
    · rintro ⟨d, hd, rfl⟩
      rwa [dropLiterals_eq_self (none d hd)]
    · exact dropLiterals_eq_self (none c hc)

theorem trims_withoutLiterals (dropped : LiteralSet) (stratum : ClauseSet) :
    Trims (withoutLiterals dropped stratum) stratum := by
  constructor
  · intro c hc
    obtain ⟨d, hd, rfl⟩ := mem_withoutLiterals.1 hc
    exact ⟨d, hd, fun l hl => (mem_dropLiterals.1 hl).1⟩
  · exact fun d hd => ⟨_, mem_withoutLiterals.2 ⟨d, hd, rfl⟩, fun l hl => (mem_dropLiterals.1 hl).1⟩

theorem trims_propagateUnits (strata : List ClauseSet) : List.Forall₂ Trims (propagateUnits strata).2 strata := by
  induction strata with
  | nil => exact .nil
  | cons stratum strata ih => exact .cons (trims_withoutLiterals _ stratum) ih

def Alike (strata strata' : List ClauseSet) : Prop :=
  ∀ i w, (∀ r ∈ strata.drop i, ∀ c ∈ r, c.Holds w) ↔ ∀ r ∈ strata'.drop i, ∀ c ∈ r, c.Holds w

theorem alike_propagateUnits (strata : List ClauseSet) : Alike (propagateUnits strata).2 strata := by
  induction strata with
  | nil => exact fun _ _ => Iff.rfl
  | cons stratum strata ih =>
    rintro (- | i) w
    · have above : (∀ r ∈ (propagateUnits strata).2, ∀ c ∈ r, c.Holds w) ↔ ∀ r ∈ strata, ∀ c ∈ r, c.Holds w := ih 0 w
      rw [propagateUnits_cons, List.drop_zero, List.drop_zero, List.forall_mem_cons, List.forall_mem_cons, above]
      refine and_congr_left fun rest => ⟨(trims_withoutLiterals _ stratum).models, fun first c hc => ?_⟩
      obtain ⟨d, hd, rfl⟩ := mem_withoutLiterals.1 hc
      refine holds_dropLiterals (fun l hl holds => ?_) (first d hd)
      obtain ⟨r, hr, unit⟩ := mem_excluded.1 hl
      have opposite : l.negate.Holds w :=
        Clause.holds_unit.1 (List.forall_mem_cons.2 ⟨first, rest⟩ r hr _ unit)
      exact Literal.holds_negate.1 opposite holds
    · exact ih i w

/-! ### The number of literals -/

def literalsIn (strata : List ClauseSet) : Nat := (strata.map fun stratum => (stratum.toList.map Clause.size).sum).sum

theorem literalCount_eq (t : Theory) : t.literalCount = literalsIn t.strata := by
  rw [literalCount, rules, strata, literalsIn]
  induction t.levels with
  | nil => rfl
  | cons l levels ih =>
    rw [List.flatMap_cons, List.foldr_append, ih, List.map_cons, List.map_cons, List.sum_cons]
    induction l.clauses.toList with
    | nil => exact (Nat.zero_add _).symm
    | cons c cs ih => rw [List.map_cons, List.foldr_cons, ih, List.map_cons, List.sum_cons, Nat.add_assoc]

theorem size_dropLiterals_le (dropped : LiteralSet) (c : Clause) : (dropLiterals dropped c).size ≤ c.size :=
  List.length_filter_le _ _

theorem size_dropLiterals_lt (hl : l ∈ c) (excluded : l ∈ dropped) : (dropLiterals dropped c).size < c.size :=
  OrdSet.size_lt_of_subset (fun _ hm => (mem_dropLiterals.1 hm).1) hl fun kept => (mem_dropLiterals.1 kept).2 excluded

theorem sum_size_withoutLiterals_le (dropped : LiteralSet) (stratum : ClauseSet) :
    ((withoutLiterals dropped stratum).toList.map Clause.size).sum ≤
      (stratum.toList.map fun c => (dropLiterals dropped c).size).sum := by
  have subset : (withoutLiterals dropped stratum).toList ⊆ stratum.toList.map (dropLiterals dropped) :=
    fun c hc => OrdSet.mem_ofList.1 hc
  obtain ⟨cs, perm, sublist⟩ := (OrdSet.nodup_toList _).subperm subset
  calc ((withoutLiterals dropped stratum).toList.map Clause.size).sum
    _ = (cs.map Clause.size).sum := (perm.map _).sum_eq.symm
    _ ≤ ((stratum.toList.map (dropLiterals dropped)).map Clause.size).sum :=
      (sublist.map _).sum_le_sum fun _ _ => Nat.zero_le _
    _ = _ := by rw [List.map_map]; rfl

theorem literalsIn_propagateUnits_le (strata : List ClauseSet) :
    literalsIn (propagateUnits strata).2 ≤ literalsIn strata := by
  induction strata with
  | nil => exact Nat.le_refl _
  | cons stratum strata ih =>
    have first := sum_size_withoutLiterals_le (excluded (stratum :: strata)) stratum
    have fewer : (stratum.toList.map fun c => (dropLiterals (excluded (stratum :: strata)) c).size).sum ≤
        (stratum.toList.map Clause.size).sum := List.sum_le_sum fun c _ => size_dropLiterals_le _ c
    exact Nat.add_le_add (Nat.le_trans first fewer) ih

theorem literalsIn_propagateUnits_lt (changed : (propagateUnits strata).1 = true) :
    literalsIn (propagateUnits strata).2 < literalsIn strata := by
  induction strata with
  | nil => cases changed
  | cons stratum strata ih =>
    have first := sum_size_withoutLiterals_le (excluded (stratum :: strata)) stratum
    rw [propagateUnits_cons, Bool.or_eq_true, List.any_eq_true] at changed
    rcases changed with ⟨c, hc, dropped⟩ | changed
    · obtain ⟨l, hl, dropped⟩ := List.any_eq_true.1 dropped
      have fewer : (stratum.toList.map fun c => (dropLiterals (excluded (stratum :: strata)) c).size).sum <
          (stratum.toList.map Clause.size).sum :=
        List.sum_lt_sum _ _ (fun c _ => size_dropLiterals_le _ c)
          ⟨c, hc, size_dropLiterals_lt hl (OrdSet.has_eq_true.1 dropped)⟩
      exact Nat.add_lt_add_of_lt_of_le (Nat.lt_of_le_of_lt first fewer) (literalsIn_propagateUnits_le strata)
    · have fewer : (stratum.toList.map fun c => (dropLiterals (excluded (stratum :: strata)) c).size).sum ≤
          (stratum.toList.map Clause.size).sum := List.sum_le_sum fun c _ => size_dropLiterals_le _ c
      exact Nat.add_lt_add_of_le_of_lt (Nat.le_trans first fewer) (ih changed)

/-! ### Rounds -/

/-- Rounds without any bound on their number, up to one that drops nothing. -/
inductive Rounds : List ClauseSet → List ClauseSet → Prop
  | last {strata : List ClauseSet} (settled : (propagateUnits strata).1 = false) :
    Rounds strata (propagateUnits strata).2
  | more {strata strata' : List ClauseSet} (changed : (propagateUnits strata).1 = true)
    (rest : Rounds (propagateUnits strata).2 strata') : Rounds strata strata'

theorem rounds_of_literalsIn_lt (enough : literalsIn strata < fuel) :
    Rounds strata (propagateUnitsUpTo fuel strata) := by
  induction fuel generalizing strata with
  | zero => exact absurd enough (Nat.not_lt_zero _)
  | succ fuel ih =>
    rw [propagateUnitsUpTo]
    have fewer := @literalsIn_propagateUnits_lt strata
    rcases round : propagateUnits strata with ⟨_ | _, strata'⟩
    · have last := Rounds.last (congrArg Prod.fst round)
      rwa [round] at last
    · rw [round] at fewer
      refine .more (congrArg Prod.fst round) ?_
      rw [round]
      exact ih (Nat.lt_of_lt_of_le (fewer rfl) (Nat.le_of_lt_succ enough))

namespace Rounds

theorem trims (rounds : Rounds strata strata') : List.Forall₂ Trims strata' strata := by
  induction rounds with
  | last _ => exact trims_propagateUnits _
  | more _ _ ih => exact forall₂_trans (fun _ _ _ trims trims' => trims.trans trims') ih (trims_propagateUnits _)

theorem alike (rounds : Rounds strata strata') : Alike strata' strata := by
  induction rounds with
  | last _ => exact alike_propagateUnits _
  | more _ _ ih => exact fun i w => (ih i w).trans (alike_propagateUnits _ i w)

theorem settled (rounds : Rounds strata strata') : (propagateUnits strata').1 = false := by
  induction rounds with
  | last settled => rwa [propagateUnits_of_settled settled]
  | more _ _ ih => exact ih

end Rounds

/-! ### Levels -/

section Levels

variable (ascending : Ascending levels)

include ascending

theorem forall_above_iff {P : ClauseSet → Prop} : (∀ l ∈ levels, n ≤ l.necessity → P l.clauses) ↔
    ∀ r ∈ (levels.map (·.clauses)).drop ((levels.map (·.necessity)).countP (· < n)), P r := by
  induction levels with
  | nil => simp
  | cons l levels ih =>
    obtain ⟨above, ascending⟩ := List.pairwise_cons.1 ascending
    by_cases lt : l.necessity < n
    · have first : n ≤ l.necessity → P l.clauses := fun le => absurd lt (Necessity.not_lt.2 le)
      have count : ((l :: levels).map (·.necessity)).countP (· < n) =
          (levels.map (·.necessity)).countP (· < n) + 1 := List.countP_cons_of_pos (decide_eq_true lt)
      rw [List.forall_mem_cons, and_iff_right first, ih ascending, count, List.map_cons, List.drop_succ_cons]
    · have all : ∀ k ∈ l :: levels, n ≤ k.necessity :=
        List.forall_mem_cons.2 ⟨Necessity.not_lt.1 lt,
          fun k hk => Necessity.le_trans (Necessity.not_lt.1 lt) (Necessity.le_of_lt (above k hk))⟩
      have none : ((l :: levels).map (·.necessity)).countP (· < n) = 0 := by
        refine List.countP_eq_zero.2 (List.forall_mem_map.2 fun k hk lt => ?_)
        exact Necessity.not_lt.2 (all k hk) (of_decide_eq_true lt)
      rw [none, List.drop_zero, List.forall_mem_map]
      exact forall₂_congr fun k hk => imp_iff_right (all k hk)

theorem not_mem_of_settled (settled : (propagateUnits (levels.map (·.clauses))).1 = false) {k k' : Level}
    (hk : k ∈ levels) (hk' : k' ∈ levels) (le : k.necessity ≤ k'.necessity) (unit : Clause.unit l ∈ k'.clauses)
    (hc : c ∈ k.clauses) : ¬ l.negate ∈ c := by
  induction levels with
  | nil => cases hk
  | cons first levels ih =>
    obtain ⟨above, ascending⟩ := List.pairwise_cons.1 ascending
    obtain ⟨none, settled⟩ := settled_cons.1 settled
    rcases List.mem_cons.1 hk with rfl | later
    · refine fun opposite => none c hc _ opposite (mem_excluded.2 ⟨_, List.mem_map_of_mem hk', ?_⟩)
      rwa [Literal.negate_negate]
    · rcases List.mem_cons.1 hk' with rfl | later'
      · exact absurd (above k later) (Necessity.not_lt.2 le)
      · exact ih ascending settled later later'

end Levels

theorem forall_cut_iff (regular : t.Regular) : (∀ c ∈ t.cut n, c.Holds w) ↔
    (∀ r ∈ t.strata.drop (t.weights.countP (· < n)), ∀ c ∈ r, c.Holds w) ∧ ∀ c ∈ t.hardRules, c.Holds w := by
  rw [forall_cut_levels, forall_above_iff regular.ascending (P := fun r => ∀ c ∈ r, c.Holds w)]
  rfl

/-! ### The simplified theory -/

def unitLevels (t : Theory) : List Level :=
  (t.weights.zip (propagateUnitsUpTo (t.literalCount + 1) t.strata)).map fun p => ⟨p.1, p.2⟩

theorem rounds_strata (t : Theory) : Rounds t.strata (propagateUnitsUpTo (t.literalCount + 1) t.strata) :=
  rounds_of_literalsIn_lt (literalCount_eq t ▸ Nat.lt_succ_self _)

theorem trimmed_zip (trims : List.Forall₂ Trims strata (levels.map (·.clauses))) :
    List.Forall₂ Trimmed (((levels.map (·.necessity)).zip strata).map fun p => ⟨p.1, p.2⟩) levels := by
  generalize same : levels.map (·.clauses) = strata' at trims
  induction trims generalizing levels with
  | nil =>
    obtain rfl := List.map_eq_nil_iff.1 same
    exact .nil
  | cons first _ ih =>
    obtain ⟨l, levels, rfl, rfl, rfl⟩ := List.map_eq_cons_iff.1 same
    exact .cons ⟨rfl, first⟩ (ih rfl)

theorem trimmed_unitLevels (t : Theory) : List.Forall₂ Trimmed t.unitLevels t.levels :=
  trimmed_zip (rounds_strata t).trims

theorem unitLevels_of_settled (settled : (propagateUnits t.strata).1 = false) : t.unitLevels = t.levels := by
  have round : propagateUnits t.strata = (false, t.strata) := Prod.ext settled (propagateUnits_of_settled settled)
  rw [unitLevels, propagateUnitsUpTo, round]
  dsimp only
  rw [weights, strata, List.zip_map', List.map_map]
  exact List.map_id t.levels

section Populated

variable (regular : t.Regular) (populated : t.Populated)

include regular populated

theorem levels_simplifyByUnits : t.simplifyByUnits.levels = t.unitLevels :=
  levels_of_trimmed t.trimmed_unitLevels regular populated

theorem weights_simplifyByUnits : t.simplifyByUnits.weights = t.weights :=
  weights_of_trimmed t.trimmed_unitLevels regular populated

theorem rounds_simplifyByUnits : Rounds t.strata t.simplifyByUnits.strata := by
  have same_length : (propagateUnitsUpTo (t.literalCount + 1) t.strata).length = t.weights.length := by
    rw [(rounds_strata t).trims.length_eq, strata, weights, List.length_map, List.length_map]
  have strata_eq : t.simplifyByUnits.strata = propagateUnitsUpTo (t.literalCount + 1) t.strata := by
    rw [strata, levels_simplifyByUnits regular populated, unitLevels, List.map_map]
    exact List.map_snd_zip (Nat.le_of_eq same_length)
  rw [strata_eq]
  exact rounds_strata t

theorem equivalent_simplifyByUnits : t.simplifyByUnits.Equivalent t := by
  refine ⟨degrees_of_trimmed t.trimmed_unitLevels regular populated, fun n w => ?_⟩
  have regular' : t.simplifyByUnits.Regular := regular_withLevels t _
  rw [forall_cut_iff regular', forall_cut_iff regular, weights_simplifyByUnits regular populated,
    (rounds_simplifyByUnits regular populated).alike _ w]
  rfl

end Populated

/-- Clauses lose the literals that unit clauses exclude, round by round, and there is a last round. Necessities, hard
rules and the models of each cut stay as they are, and so do the answers. No clause is left with the negation of a unit
clause of its level or of one above, so nothing changes the second time. -/
theorem units_preserve (t : Theory) (regular : t.Regular) (populated : t.Populated) :
    Rounds t.strata t.simplifyByUnits.strata ∧
    t.simplifyByUnits.weights = t.weights ∧ t.simplifyByUnits.hardRules = t.hardRules ∧
    (∀ n w, (∀ c ∈ t.simplifyByUnits.cut n, c.Holds w) ↔ ∀ c ∈ t.cut n, c.Holds w) ∧
    ((∀ c ∈ t.clauses, c.isGround = true) → t.settings.Probable →
      ∀ evidence : Evidence, (∀ l ∈ evidence, l.isGround = true) → t.SameAnswers t.simplifyByUnits evidence) ∧
    (∀ m n l, m ≤ n → Clause.unit l ∈ t.simplifyByUnits.level n →
      ∀ c ∈ t.simplifyByUnits.level m, ¬ l.negate ∈ c) ∧
    t.simplifyByUnits.simplifyByUnits = t.simplifyByUnits := by
  have rounds := rounds_simplifyByUnits regular populated
  have equivalent := equivalent_simplifyByUnits regular populated
  have regular' : t.simplifyByUnits.Regular := regular_withLevels t _
  refine ⟨rounds, weights_simplifyByUnits regular populated, rfl, equivalent.models,
    fun ground probable evidence ground_evidence => ?_, fun m n l le hu c hc => ?_, ?_⟩
  · have ground' := ground_of_trimmed t.trimmed_unitLevels regular populated ground
    exact equivalent.sameAnswers rfl regular regular' ground ground' probable ground_evidence
  · obtain ⟨k', hk', rfl, unit⟩ := mem_level.1 hu
    obtain ⟨k, hk, rfl, mem⟩ := mem_level.1 hc
    exact not_mem_of_settled regular'.ascending rounds.settled hk hk' le unit mem
  · calc t.simplifyByUnits.simplifyByUnits
      _ = t.simplifyByUnits.withLevels t.simplifyByUnits.unitLevels := rfl
      _ = t.simplifyByUnits.withLevels t.simplifyByUnits.levels := by rw [unitLevels_of_settled rounds.settled]
      _ = t.simplifyByUnits := withLevels_levels t _

def chained : Theory :=
  ofStrata [.ofList [.ofList [⟨"a", [], true⟩, ⟨"b", [], true⟩], .ofList [⟨"b", [], false⟩, ⟨"c", [], true⟩]],
    .singleton (.unit ⟨"a", [], false⟩)]

theorem units_preserve_chained :
    chained.simplifyByUnits.strata =
      [.ofList [.unit ⟨"b", [], true⟩, .unit ⟨"c", [], true⟩], .singleton (.unit ⟨"a", [], false⟩)] ∧
    (∀ w, (∀ c ∈ chained.simplifyByUnits.cut (.ofLevel 0 2), c.Holds w) ↔
      ∀ c ∈ chained.cut (.ofLevel 0 2), c.Holds w) ∧
    (∃ b s' u', (chained.implies ∅ (.unit ⟨"c", [], true⟩)).run {} = (.ok b, s') ∧
      (chained.simplifyByUnits.implies ∅ (.unit ⟨"c", [], true⟩)).run {} = (.ok b, u')) ∧
    chained.simplifyByUnits.simplifyByUnits = chained.simplifyByUnits := by
  obtain ⟨-, -, -, models, answers, -, again⟩ :=
    units_preserve chained (regular_ofStrata _) (populated_ofStrata _)
  have nothing : ∀ l ∈ (∅ : Evidence), l.isGround = true := fun l hl => absurd hl (OrdSet.not_mem_empty l)
  obtain ⟨b, answer, answer'⟩ := (answers (by decide +kernel) Settings.probable_default ∅ nothing).implied
    (.unit ⟨"c", [], true⟩) (by decide +kernel)
  obtain ⟨s', run, -⟩ := answer.run rfl (Session.truthful_new _)
  obtain ⟨u', run', -⟩ := answer'.run rfl (Session.truthful_new _)
  exact ⟨by decide +kernel, models _, ⟨b, s', u', run, run'⟩, again⟩

end Theory

end Defeasible
