import Defeasible.Proofs.Theory.Interval
import Mathlib.Data.List.Forall2

/-! Interval theories are cautious. However the necessities of the rules are chosen from their intervals, what the
interval theory implies the theory of the choice implies as well. A rule that is left above the drowning level is never
chosen below the preferred level of the choice: the choice would be consistent there, as it has no more rules there
than the upper theory, and the upper theory has no levels between the drowning level and its preferred one. -/

namespace Defeasible

namespace Theory

variable {t : Theory} {evidence : Evidence} {n m : Necessity} {c : Clause} {clauses : ClauseSet}
  {rules : List (Clause × Necessity)}

/-! ### The levels of theories of rules -/

theorem ofRules_concat (rules : List (Clause × Necessity)) (r : Clause × Necessity) :
    ofRules (rules ++ [r]) = (ofRules rules).addRule r.1 r.2 :=
  List.foldl_append

theorem mem_level_ofRules : c ∈ (ofRules rules).level n ↔ (c, n) ∈ rules := by
  induction rules using List.reverseRecOn with
  | nil => exact iff_of_false (OrdSet.not_mem_empty c) List.not_mem_nil
  | append_singleton rules r ih =>
    rw [ofRules_concat, addRule, mem_level_addAll, ih, OrdSet.mem_singleton, List.mem_append, List.mem_singleton,
      Prod.eq_iff_fst_eq_snd_eq, and_comm]

theorem hardRules_ofRules (rules : List (Clause × Necessity)) : (ofRules rules).hardRules = ∅ :=
  List.foldlRecOn (motive := fun t : Theory => t.hardRules = ∅) rules _ rfl fun _ none _ _ => none

theorem mem_cut_ofRules : c ∈ (ofRules rules).cut n ↔ ∃ m, n ≤ m ∧ (c, m) ∈ rules := by
  simp only [mem_cut_iff_level, hardRules_ofRules, OrdSet.not_mem_empty, or_false, mem_level_ofRules]

theorem mem_weights_ofRules : n ∈ (ofRules rules).weights ↔ ∃ c, (c, n) ∈ rules := by
  simp only [mem_weights_iff_level (populated_ofRules rules), mem_level_ofRules]

theorem cached_ofRules (rules : List (Clause × Necessity)) : (ofRules rules).cached = false :=
  List.foldlRecOn (motive := fun t : Theory => t.cached = false) rules _ rfl fun _ same _ _ => same

theorem mem_cut_strictlyAbove (regular : t.Regular) (populated : t.Populated)
    (mem : c ∈ (t.strictlyAbove n).cut m) : (∃ k, n < k ∧ c ∈ t.level k) ∨ c ∈ t.hardRules := by
  rw [mem_cut, levels_strictlyAbove regular populated] at mem
  refine mem.imp_left fun ⟨l, hl, _, hc⟩ => ?_
  obtain ⟨hl, lt⟩ := List.mem_filter.1 hl
  exact ⟨l.necessity, of_decide_eq_true lt, mem_level.2 ⟨l, hl, rfl, hc⟩⟩

/-! ### Consequents that are not ground -/

theorem implies_meets_ground (regular : t.Regular) (probable : t.settings.Probable) (uncached : t.cached = false) :
    (t.implies evidence c).Meets (fun b => b = true → c.isTautology = true ∨ c.isGround = true) fun _ => True := by
  have askable := askable_any regular probable
  unfold implies
  split
  · next tautology => exact .pure fun _ => .inl tautology
  · refine Query.Meets.bind askable.admitted fun _ _ => ?_
    refine (askable.solve_meets fun _ _ => trivial).bind fun answer _ => ?_
    cases answer with
    | none => exact .pure nofun
    | some found =>
      by_cases ground : c.isGround = true
      · exact (askable.solves _ fun _ _ _ _ => trivial).bind fun _ _ => .pure fun _ => .inr ground
      · -- The problem holds the negation of a literal that is not ground.
        have not_ground : ¬ ∀ d ∈ t.cut found.2 ∪ units evidence.toList ∪ units c.negated,
            d.isGround = true := by
          intro all
          refine ground (List.all_eq_true.2 fun l hl => ?_)
          have negated : .unit l.negate ∈ units c.negated :=
            OrdSet.mem_ofList.2 (List.mem_map_of_mem (List.mem_map_of_mem hl))
          exact List.all_eq_true.1 (all _ (OrdSet.mem_union.2 (.inr negated))) l.negate (List.mem_singleton_self _)
        obtain ⟨e, failed⟩ := Query.solveFresh_eq_throw t.settings not_ground
        dsimp only
        rw [solveProblem, uncached, if_neg Bool.false_ne_true, failed]
        exact .throw trivial

end Theory

namespace IntervalTheory

open Theory

variable {t : IntervalTheory} {rules : List (Clause × Necessity × Necessity)} {chosen : List (Clause × Necessity)}
  {evidence : Evidence} {n m p : Necessity} {w : World} {c : Clause} {weights : List Necessity}

/-! ### Choices -/

structure Within (rule : Clause × Necessity × Necessity) (choice : Clause × Necessity) : Prop where
  clause : choice.1 = rule.1
  low_le : rule.2.1 ≤ choice.2
  le_high : choice.2 ≤ rule.2.2

theorem ofRules_eq (rules : List (Clause × Necessity × Necessity)) :
    ofRules rules =
      ⟨.ofRules (rules.map fun r => (r.1, r.2.1)), .ofRules (rules.map fun r => (r.1, r.2.2))⟩ := by
  induction rules using List.reverseRecOn with
  | nil => rfl
  | append_singleton rules r ih =>
    have last : ofRules (rules ++ [r]) = (ofRules rules).addRule r.1 r.2.1 r.2.2 := List.foldl_append
    rw [last, ih, List.map_append, List.map_append, List.map_singleton, List.map_singleton, ofRules_concat,
      ofRules_concat, addRule]

theorem le_of_drowningLevel_lt (ascending : weights.Pairwise (· < ·)) (mem : m ∈ weights)
    (lt : drowningLevel weights n < m) : n ≤ m := by
  by_cases lower : ∃ k ∈ weights, k < n
  · exact (drowningLevel_lt_iff ascending lower mem).1 lt
  · have lowest : ∀ k ∈ weights, n ≤ k := fun k hk => Necessity.not_lt.1 fun lt => lower ⟨k, hk, lt⟩
    rw [drowningLevel_of_lowest ascending lowest] at lt
    exact Necessity.le_of_lt lt

section Within

variable (within : List.Forall₂ Within rules chosen)

include within

theorem exists_choice {low high : Necessity} (mem : (c, low, high) ∈ rules) :
    ∃ n, low ≤ n ∧ n ≤ high ∧ (c, n) ∈ chosen := by
  induction within with
  | nil => cases mem
  | @cons rule choice rules chosen first rest ih =>
    rcases List.mem_cons.1 mem with rfl | mem
    · exact ⟨choice.2, first.low_le, first.le_high, List.mem_cons.2 (.inl (Prod.ext first.clause.symm rfl))⟩
    · exact (ih mem).imp fun n h => ⟨h.1, h.2.1, List.mem_cons_of_mem _ h.2.2⟩

theorem exists_interval (mem : (c, n) ∈ chosen) : ∃ low high, n ≤ high ∧ (c, low, high) ∈ rules := by
  induction within with
  | nil => cases mem
  | @cons rule choice rules chosen first rest ih =>
    rcases List.mem_cons.1 mem with rfl | mem
    · exact ⟨rule.2.1, rule.2.2, first.le_high, List.mem_cons.2 (.inl (Prod.ext first.clause rfl))⟩
    · exact (ih mem).imp fun low h => h.imp fun high h => ⟨h.1, List.mem_cons_of_mem _ h.2⟩

theorem modelAt_of_upper (model : (ofRules rules).upper.ModelAt n evidence w) :
    (Theory.ofRules chosen).ModelAt n evidence w := by
  rw [ofRules_eq] at model
  refine ⟨fun c hc => model.cut c ?_, model.evidence⟩
  obtain ⟨m, le, mem⟩ := mem_cut_ofRules.1 hc
  obtain ⟨low, high, le', mem⟩ := exists_interval within mem
  exact mem_cut_ofRules.2 ⟨high, Necessity.le_trans le le', List.mem_map_of_mem mem⟩

variable (upper : (ofRules rules).upper.Preferred evidence p)

include upper

theorem consistentAt_of_drowningLevel_lt (lt : drowningLevel (ofRules rules).upper.weights p < n) :
    (Theory.ofRules chosen).ConsistentAt n evidence := by
  obtain ⟨w, model⟩ := upper.consistent
  refine ⟨w, modelAt_of_upper within ⟨fun c hc => model.cut c ?_, model.evidence⟩⟩
  have ascending : (ofRules rules).upper.weights.Pairwise (· < ·) := by
    rw [ofRules_eq]
    exact List.pairwise_map.2 (regular_ofRules _).ascending
  rcases mem_cut.1 hc with ⟨l, hl, le, hc⟩ | hc
  · refine mem_cut.2 (.inl ⟨l, hl, ?_, hc⟩)
    exact le_of_drowningLevel_lt ascending (List.mem_map_of_mem hl) (UInt64.lt_of_lt_of_le lt le)
  · exact mem_cut.2 (.inr hc)

variable (preferred : (Theory.ofRules chosen).Preferred evidence n)

include preferred

theorem modelAt_remainder (model : (Theory.ofRules chosen).ModelAt n evidence w) :
    ((ofRules rules).remainder p).ModelAt m evidence w := by
  refine ⟨fun c hc => model.cut c ?_, model.evidence⟩
  rw [remainder, ofRules_eq] at hc
  rcases mem_cut_strictlyAbove (regular_ofRules _) (populated_ofRules _) hc with ⟨k, lt, hc⟩ | hc
  · obtain ⟨rule, mem, same⟩ := List.mem_map.1 (mem_level_ofRules.1 hc)
    obtain ⟨rfl, rfl⟩ := Prod.mk.inj same
    obtain ⟨x, low_le, -, mem⟩ := exists_choice within mem
    refine mem_cut_ofRules.2 ⟨x, preferred.le ?_ ?_, mem⟩
    · exact mem_degrees_of_mem_weights (mem_weights_ofRules.2 ⟨_, mem⟩)
    · refine consistentAt_of_drowningLevel_lt within upper ?_
      rw [ofRules_eq]
      exact UInt64.lt_of_lt_of_le lt low_le
  · rw [hardRules_ofRules] at hc
    exact absurd hc (OrdSet.not_mem_empty c)

theorem entails_of_within (entails : ((ofRules rules).remainder p).Entails evidence c) :
    (Theory.ofRules chosen).Entails evidence c := by
  refine preferred.entails_iff.2 fun w model => ?_
  rcases entails with always | ⟨m, -, holds⟩
  · exact always w
  · exact holds w (modelAt_remainder within upper preferred model)

end Within

/-! ### Queries -/

section Queries

variable (regular : t.upper.Regular) (probable : t.upper.settings.Probable)
  (probable_lower : t.lower.settings.Probable) (uncached : t.lower.cached = false)

include regular probable

theorem undrowned_meets_any :
    (t.undrowned evidence).Meets (fun left => ∀ u ∈ left, ∃ n, t.upper.Preferred evidence n ∧ u = t.remainder n)
      fun _ => True := by
  refine ((askable_any regular probable).solve_meets fun _ _ => trivial).bind fun answer prefers => ?_
  cases answer with
  | none => exact .pure fun u hu => absurd hu (Option.not_mem_none u)
  | some found =>
    refine .pure fun u hu => ⟨found.2, prefers.1, ?_⟩
    exact (Option.some.inj hu).symm

include probable_lower uncached

theorem implies_meets_any :
    (t.implies evidence c).Meets (fun b => b = true → (c.isTautology = true ∨ c.isGround = true) ∧
      ∃ n, t.upper.Preferred evidence n ∧ (t.remainder n).Entails evidence c) fun _ => True := by
  refine (undrowned_meets_any regular probable).bind fun left from_lower => ?_
  cases left with
  | none => exact .pure nofun
  | some u =>
    obtain ⟨n, preferred, rfl⟩ := from_lower u rfl
    have regular_remainder : (t.remainder n).Regular := regular_withLevels _ _
    have entails : ((t.remainder n).implies evidence c).Meets
        (fun b => b = true ↔ (t.remainder n).Entails evidence c) fun _ => True :=
      (askable_any regular_remainder probable_lower).implies_meets (fun _ _ => trivial) fun _ _ => trivial
    refine (entails.and (implies_meets_ground regular_remainder probable_lower uncached)).imp ?_
    exact fun b found implied => ⟨found.2 implied, n, preferred, found.1.1 implied⟩

end Queries

/-- Whatever is chosen from the intervals, what the interval theory implies is implied by the choice. -/
theorem implies_of_within (rules : List (Clause × Necessity × Necessity))
    (ground : ∀ r ∈ rules, r.1.isGround = true) (chosen : List (Clause × Necessity))
    (within : List.Forall₂ Within rules chosen)
    (evidence : Evidence) (ground_evidence : ∀ l ∈ evidence, l.isGround = true)
    (preferred : ∃ n, (Theory.ofRules chosen).Preferred evidence n)
    (c : Clause) (s u : Session) (truthful : s.Truthful) (truthful' : u.Truthful)
    (implied : ∃ s', ((ofRules rules).implies evidence c).run s = (.ok true, s')) :
    ∃ u', ((Theory.ofRules chosen).implies evidence c).run u = (.ok true, u') := by
  obtain ⟨n, preferred⟩ := preferred
  obtain ⟨s', run⟩ := implied
  have made := ofRules_eq rules
  have settings (rules : List (Clause × Necessity)) : (Theory.ofRules rules).settings.Probable :=
    (settings_ofRules rules).symm ▸ Settings.probable_default
  obtain ⟨ground_or, p, upper, entails⟩ := (implies_meets_any (made ▸ regular_ofRules _) (made ▸ settings _)
    (made ▸ settings _) (made ▸ cached_ofRules _)).of_run truthful run rfl
  have entails := entails_of_within within upper preferred entails
  rcases ground_or with tautology | ground_consequent
  · exact ⟨u, by rw [Theory.implies, if_pos tautology]; rfl⟩
  · have ground_chosen : ∀ r ∈ chosen, r.1.isGround = true := fun r hr => by
      obtain ⟨low, high, -, mem⟩ := exists_interval within (c := r.1) (n := r.2) hr
      exact ground _ mem
    have solves : (Theory.ofRules chosen).Solves fun _ => False :=
      solves_of_untimed (settings chosen) (by rw [settings_ofRules]; rfl)
    obtain ⟨b, u', run', -, exact⟩ := (Theory.implies_meets (regular_ofRules chosen) (ground_ofRules ground_chosen)
      solves ground_evidence ground_consequent).result truthful'
    rw [exact.2 entails] at run'
    exact ⟨u', run'⟩

def overlapping : List (Clause × Necessity × Necessity) :=
  [(.unit ⟨"a", [], true⟩, ⟨0x3fc0000000000000⟩, ⟨0x3fd8000000000000⟩),
    (.unit ⟨"b", [], true⟩, ⟨0x3fd0000000000000⟩, ⟨0x3fe0000000000000⟩),
    (.unit ⟨"c", [], true⟩, ⟨0x3fe0000000000000⟩, ⟨0x3fe4000000000000⟩)]

def leveled : List (Clause × Necessity) :=
  [(.unit ⟨"a", [], true⟩, ⟨0x3fd0000000000000⟩), (.unit ⟨"b", [], true⟩, ⟨0x3fd0000000000000⟩),
    (.unit ⟨"c", [], true⟩, ⟨0x3fe0000000000000⟩)]

theorem leveled_implies_third : ∃ s',
    ((Theory.ofRules leveled).implies (.singleton ⟨"a", [], false⟩) (.unit ⟨"c", [], true⟩)).run {} =
      (.ok true, s') := by
  have solved : ((Theory.ofRules leveled).solve (.singleton ⟨"a", [], false⟩)).run {} =
      (.ok (some (.ofList [⟨"c", [], true⟩], ⟨0x3fe0000000000000⟩)), _) :=
    Prod.ext (by decide +kernel) rfl
  have meets : ((Theory.ofRules leveled).solve (.singleton ⟨"a", [], false⟩)).Meets
      ((Theory.ofRules leveled).Prefers (.singleton ⟨"a", [], false⟩)) fun _ => True :=
    (askable_any (regular_ofRules leveled) Settings.probable_default).solve_meets fun _ _ => trivial
  have within : List.Forall₂ Within overlapping leveled :=
    .cons ⟨rfl, by decide, by decide⟩ (.cons ⟨rfl, by decide, by decide⟩ (.cons ⟨rfl, by decide, by decide⟩ .nil))
  exact implies_of_within overlapping (by decide +kernel) leveled within
    (.singleton ⟨"a", [], false⟩) (by decide +kernel) ⟨_, (meets.of_run (Session.truthful_new _) solved).1⟩
    (.unit ⟨"c", [], true⟩) {} {} (Session.truthful_new _) (Session.truthful_new _)
    ⟨_, Prod.ext (by decide +kernel) rfl⟩

end IntervalTheory

end Defeasible
