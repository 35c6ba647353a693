import Defeasible.Proofs.Theory.Drowning
import Defeasible.Proofs.Theory.HardRules
import Defeasible.Theory.Interval

/-! Theories with intervals of necessities. Where all intervals are points, the levels that are dropped are those that
the evidence drowns, so the answers are those of the plain theory; but where no level is drowned, the lowest one is
dropped all the same. -/

namespace Defeasible

namespace Theory

variable {t : Theory} {evidence : Evidence} {n m : Necessity} {w : World} {c : Clause}

/-! ### Strictly above a necessity -/

section StrictlyAbove

variable (regular : t.Regular) (populated : t.Populated)

include regular populated

theorem levels_strictlyAbove : (t.strictlyAbove n).levels = t.levels.filter fun l => n < l.necessity := by
  refine levels_ofLevels (regular.ascending.filter _) fun l hl => ?_
  exact populated l (List.mem_filter.1 hl).1

theorem mem_clauses_strictlyAbove (mem : c ∈ (t.strictlyAbove n).clauses) : c ∈ t.clauses := by
  rw [mem_clauses, levels_strictlyAbove regular populated] at mem
  exact mem_clauses.2 (mem.imp_left fun ⟨l, hl, hc⟩ => ⟨l, (List.mem_filter.1 hl).1, hc⟩)

theorem modelAt_strictlyAbove (model : t.ModelAt n evidence w) : (t.strictlyAbove n).ModelAt m evidence w := by
  refine ⟨fun c hc => model.cut c ?_, model.evidence⟩
  rw [mem_cut, levels_strictlyAbove regular populated] at hc
  refine mem_cut.2 (hc.imp_left fun ⟨l, hl, _, hc⟩ => ⟨l, (List.mem_filter.1 hl).1, ?_, hc⟩)
  exact Necessity.le_of_lt (of_decide_eq_true (List.mem_filter.1 hl).2)

theorem entails_of_strictlyAbove (preferred : t.Preferred evidence n)
    (entails : (t.strictlyAbove n).Entails evidence c) : t.Entails evidence c := by
  refine preferred.entails_iff.2 fun w model => ?_
  rcases entails with always | ⟨m, -, holds⟩
  · exact always w
  · exact holds w (modelAt_strictlyAbove regular populated model)

end StrictlyAbove

/-! ### Theories of rules -/

theorem settings_ofRules (rules : List (Clause × Necessity)) : (ofRules rules).settings = {} :=
  List.foldlRecOn (motive := fun t : Theory => t.settings = {}) rules _ rfl fun _ same _ _ => same

theorem ground_ofRules {rules : List (Clause × Necessity)} (ground : ∀ r ∈ rules, r.1.isGround = true) :
    ∀ c ∈ (ofRules rules).clauses, c.isGround = true := by
  refine List.foldlRecOn (motive := fun t : Theory => ∀ c ∈ t.clauses, c.isGround = true) rules _
    (fun c hc => absurd hc List.not_mem_nil) fun t known r hr c hc => ?_
  rcases mem_clauses.1 hc with ⟨l, hl, hc⟩ | hc
  · rcases mem_of_mem_addToLevel hl hc with hc | ⟨k, hk, hc⟩
    · rw [OrdSet.mem_singleton.1 hc]
      exact ground r hr
    · exact known c (mem_clauses.2 (.inl ⟨k, hk, hc⟩))
  · exact known c (mem_clauses.2 (.inr hc))

end Theory

namespace IntervalTheory

open Theory

variable {t : IntervalTheory} {evidence : Evidence} {n m : Necessity} {c : Clause} {weights : List Necessity}
  {E : Error → Prop}

/-! ### The drowning level -/

theorem takeWhile_lt (ascending : weights.Pairwise (· < ·)) :
    weights.takeWhile (· < n) = weights.filter (· < n) := by
  induction weights with
  | nil => rfl
  | cons m weights ih =>
    obtain ⟨above, ascending'⟩ := List.pairwise_cons.1 ascending
    by_cases lt : m < n
    · rw [List.takeWhile_cons, List.filter_cons, if_pos (decide_eq_true lt), if_pos (decide_eq_true lt),
        ih ascending']
    · have none_lt : ∀ k ∈ m :: weights, ¬ k < n := by
        refine List.forall_mem_cons.2 ⟨lt, fun k hk lt' => lt ?_⟩
        exact Necessity.lt_trans (above k hk) lt'
      rw [List.takeWhile_cons, if_neg (not_imp_not.2 of_decide_eq_true lt), List.filter_eq_nil_iff.2]
      exact fun k hk lt' => none_lt k hk (of_decide_eq_true lt')

section Weights

variable (ascending : weights.Pairwise (· < ·))

include ascending

theorem drowningLevel_of_lowest (lowest : ∀ m ∈ weights, n ≤ m) : drowningLevel weights n = n := by
  have nothing : weights.filter (· < n) = [] :=
    List.filter_eq_nil_iff.2 fun m hm lt => Necessity.not_lt.2 (lowest m hm) (of_decide_eq_true lt)
  rw [drowningLevel, takeWhile_lt ascending, nothing]
  rfl

theorem drowningLevel_lt_iff (lower : ∃ m ∈ weights, m < n) (mem : m ∈ weights) :
    drowningLevel weights n < m ↔ n ≤ m := by
  have mem_lower (k : Necessity) : k ∈ weights.filter (· < n) ↔ k ∈ weights ∧ k < n := by
    rw [List.mem_filter, decide_eq_true_iff]
  have sorted := ascending.filter (· < n)
  rw [drowningLevel, takeWhile_lt ascending]
  rcases List.eq_nil_or_concat (weights.filter (· < n)) with none | ⟨init, last, split⟩
  · obtain ⟨k, hk, lt⟩ := lower
    exact absurd ((mem_lower k).2 ⟨hk, lt⟩) (none ▸ List.not_mem_nil)
  rw [List.concat_eq_append] at split
  rw [split] at sorted mem_lower ⊢
  rw [List.getLast?_concat, Option.getD_some]
  have last_lt : last < n := ((mem_lower last).1 (List.mem_append_right _ (List.mem_singleton_self _))).2
  constructor
  · intro lt
    -- A weight below the preferred level is not after the last of these.
    refine Necessity.not_lt.1 fun below => ?_
    rcases List.mem_append.1 ((mem_lower m).2 ⟨mem, below⟩) with before | same
    · have lt' := (List.pairwise_append.1 sorted).2.2 m before last (List.mem_singleton_self _)
      exact Necessity.not_lt.2 (Necessity.le_of_lt lt') lt
    · rw [List.mem_singleton.1 same] at lt
      exact Necessity.not_lt.2 (Necessity.le_refl last) lt
  · exact fun le => UInt64.lt_of_lt_of_le last_lt le

end Weights

/-! ### Queries -/

def remainder (t : IntervalTheory) (n : Necessity) : Theory := t.lower.strictlyAbove (drowningLevel t.upper.weights n)

section Queries

variable (regular : t.upper.Regular) (ground : ∀ c ∈ t.upper.clauses, c.isGround = true) (solves : t.upper.Solves E)
  (ground_evidence : ∀ l ∈ evidence, l.isGround = true) (preferred : t.upper.Preferred evidence n)

include regular ground solves ground_evidence preferred

theorem undrowned_meets : (t.undrowned evidence).Meets (· = some (t.remainder n)) E := by
  refine (solve_meets regular ground solves ground_evidence).bind fun answer prefers => ?_
  cases answer with
  | none => exact absurd preferred.consistent (prefers n preferred.mem)
  | some found =>
    refine .pure ?_
    rw [prefers.1.unique preferred]
    rfl

theorem implies_meets (ground_remainder : ∀ c ∈ (t.remainder n).clauses, c.isGround = true)
    (solves_remainder : (t.remainder n).Solves E) (ground_consequent : c.isGround = true) :
    (t.implies evidence c).Meets (fun b => b = true ↔ (t.remainder n).Entails evidence c) E := by
  refine (undrowned_meets regular ground solves ground_evidence preferred).bind fun _ left => left ▸ ?_
  exact Theory.implies_meets (regular_withLevels _ _) ground_remainder solves_remainder ground_evidence
    ground_consequent

end Queries

/-! ### Points -/

theorem ofRules_points (rules : List (Clause × Necessity)) :
    ofRules (rules.map fun r => (r.1, r.2, r.2)) = ⟨Theory.ofRules rules, Theory.ofRules rules⟩ := by
  rw [ofRules, List.foldl_map]
  exact List.foldl_hom (fun t : Theory => (⟨t, t⟩ : IntervalTheory)) fun _ _ => rfl

section Points

variable {t : Theory} (regular : t.Regular) (populated : t.Populated)

include regular

theorem remainder_of_lower (lower : ∃ m ∈ t.weights, m < n) : remainder ⟨t, t⟩ n = t.above n := by
  have ascending : t.weights.Pairwise (· < ·) := List.pairwise_map.2 regular.ascending
  refine congrArg t.withLevels (List.filter_congr fun l hl => decide_eq_decide.2 ?_)
  exact drowningLevel_lt_iff ascending lower (List.mem_map_of_mem hl)

theorem remainder_of_lowest (lowest : ∀ m ∈ t.weights, n ≤ m) : remainder ⟨t, t⟩ n = t.strictlyAbove n := by
  have ascending : t.weights.Pairwise (· < ·) := List.pairwise_map.2 regular.ascending
  exact congrArg t.strictlyAbove (drowningLevel_of_lowest ascending lowest)

include populated

theorem entails_of_remainder (preferred : t.Preferred evidence n)
    (entails : (remainder ⟨t, t⟩ n).Entails evidence c) : t.Entails evidence c := by
  by_cases lower : ∃ m ∈ t.weights, m < n
  · rw [remainder_of_lower regular lower] at entails
    exact (entails_above regular populated preferred fun _ => id).1 entails
  · have lowest : ∀ m ∈ t.weights, n ≤ m := fun m hm => Necessity.not_lt.1 fun lt => lower ⟨m, hm, lt⟩
    rw [remainder_of_lowest regular lowest] at entails
    exact entails_of_strictlyAbove regular populated preferred entails

end Points

/-- Point intervals never imply more than the plain theory, and just as much where the evidence drowns some level, or
where there are no rules. Where it drowns none, they imply what the theory without its lowest level does. -/
theorem implies_points (rules : List (Clause × Necessity)) (ground : ∀ r ∈ rules, r.1.isGround = true)
    (evidence : Evidence) (ground_evidence : ∀ l ∈ evidence, l.isGround = true)
    (c : Clause) (ground_consequent : c.isGround = true)
    (consistent : ∃ w, (Theory.ofRules rules).ModelAtTop evidence w) :
    let t := Theory.ofRules rules
    ∃ n b b', t.Preferred evidence n ∧ (t.implies evidence c).Answers {} b ∧
      ((ofRules (rules.map fun r => (r.1, r.2, r.2))).implies evidence c).Answers {} b' ∧
      (b' = true → b = true) ∧ (rules = [] ∨ (∃ m ∈ t.weights, m < n) → b' = b) ∧
      ((∀ m ∈ t.weights, n ≤ m) → ((t.strictlyAbove n).implies evidence c).Answers {} b') := by
  classical
  intro t
  have regular : t.Regular := regular_ofRules rules
  have populated : t.Populated := populated_ofRules rules
  have ground_clauses : ∀ c ∈ t.clauses, c.isGround = true := ground_ofRules ground
  obtain ⟨m, hm, possible⟩ := (exists_consistent_iff regular.ascending).2 consistent
  obtain ⟨n, preferred⟩ := exists_preferred hm possible
  have solves (u : Theory) (same : u.settings = {}) : u.Solves ({} : Settings).Hinders := by
    have within := solves_within (t := u) (same.symm ▸ Settings.probable_default)
    rwa [same] at within
  have settings : t.settings = {} := settings_ofRules rules
  have ground_remainder : ∀ c ∈ (remainder ⟨t, t⟩ n).clauses, c.isGround = true := fun c hc =>
    ground_clauses c (mem_clauses_strictlyAbove regular populated hc)
  have plain := Theory.implies_meets regular ground_clauses (solves t settings) ground_evidence ground_consequent
  have points := implies_meets (t := ⟨t, t⟩) regular ground_clauses (solves t settings) ground_evidence preferred
    ground_remainder (solves _ settings) ground_consequent
  rw [ofRules_points]
  refine ⟨n, decide (t.Entails evidence c), decide ((remainder ⟨t, t⟩ n).Entails evidence c), preferred,
    plain.answers fun b found => ?_, points.answers fun b found => ?_, fun implied => ?_, fun same => ?_,
    fun lowest => ?_⟩
  · rw [Bool.eq_iff_iff, found, decide_eq_true_iff]
  · rw [Bool.eq_iff_iff, found, decide_eq_true_iff]
  · exact decide_eq_true (entails_of_remainder regular populated preferred (of_decide_eq_true implied))
  · refine decide_eq_decide.2 ?_
    rcases same with rfl | lower
    · rw [remainder_of_lowest regular nofun]
      rfl
    · rw [remainder_of_lower regular lower]
      exact entails_above regular populated preferred fun _ => id
  · have left : (t.strictlyAbove n).Regular := regular_withLevels _ _
    rw [remainder_of_lowest regular lowest] at ground_remainder ⊢
    refine (Theory.implies_meets left ground_remainder (solves _ settings) ground_evidence
      ground_consequent).answers fun b found => ?_
    rw [Bool.eq_iff_iff, found, decide_eq_true_iff]

def flight : List (Clause × Necessity) :=
  [(.ofList [⟨"bird", [], false⟩, ⟨"flies", [], true⟩], ⟨0x3fd0000000000000⟩),
    (.ofList [⟨"penguin", [], false⟩, ⟨"flies", [], false⟩], ⟨0x3fe0000000000000⟩),
    (.ofList [⟨"penguin", [], false⟩, ⟨"bird", [], true⟩], ⟨0x3fe8000000000000⟩)]

theorem implies_points_penguin : ∃ s',
    ((ofRules (flight.map fun r => (r.1, r.2, r.2))).implies (.singleton ⟨"penguin", [], true⟩)
      (.unit ⟨"flies", [], false⟩)).run {} = (.ok true, s') := by
  have top : (Theory.ofRules flight).maxNecessity? = some ⟨0x3fe8000000000000⟩ := by decide +kernel
  have possible : (Theory.ofRules flight).ModelAtTop (.singleton ⟨"penguin", [], true⟩) fun _ => true :=
    ⟨by decide +kernel, by decide +kernel, by rw [top]; rintro _ ⟨⟩; decide +kernel⟩
  obtain ⟨n, b, b', preferred, plain, points, -, same, -⟩ := implies_points flight (by decide +kernel)
    (.singleton ⟨"penguin", [], true⟩) (by decide +kernel) (.unit ⟨"flies", [], false⟩) (by decide +kernel)
    ⟨_, possible⟩
  have solved : ((Theory.ofRules flight).solve (.singleton ⟨"penguin", [], true⟩)).run {} =
      (.ok (some (.ofList [⟨"bird", [], true⟩, ⟨"penguin", [], true⟩], ⟨0x3fe0000000000000⟩)), _) :=
    Prod.ext (by decide +kernel) rfl
  have meets : ((Theory.ofRules flight).solve (.singleton ⟨"penguin", [], true⟩)).Meets
      ((Theory.ofRules flight).Prefers (.singleton ⟨"penguin", [], true⟩)) fun _ => True :=
    (askable_any (regular_ofRules flight) Settings.probable_default).solve_meets fun _ _ => trivial
  obtain rfl := preferred.unique (meets.of_run (Session.truthful_new _) solved).1
  obtain ⟨s, run, -⟩ := plain.run rfl (Session.truthful_new fun _ _ => 0)
  obtain ⟨s', run', -⟩ := points.run rfl (Session.truthful_new fun _ _ => 0)
  have implied : (((Theory.ofRules flight).implies (.singleton ⟨"penguin", [], true⟩)
      (.unit ⟨"flies", [], false⟩)).run {}).1 = .ok true := by decide +kernel
  rw [run] at implied
  obtain rfl := Except.ok.inj implied
  obtain rfl := same (.inr ⟨⟨0x3fd0000000000000⟩, by decide +kernel, by decide +kernel⟩)
  exact ⟨s', run'⟩

/-- A single rule is implied by the plain theory, and is lost as the lowest level of its point interval. -/
theorem points_lose_lowest :
    (∃ w, (Theory.ofRules [(.unit ⟨"a", [], true⟩, ⟨0x3fe0000000000000⟩)]).ModelAtTop ∅ w) ∧
    (((Theory.ofRules [(.unit ⟨"a", [], true⟩, ⟨0x3fe0000000000000⟩)]).implies ∅
      (.unit ⟨"a", [], true⟩)).run {}).1 = .ok true ∧
    (((ofRules [(.unit ⟨"a", [], true⟩, ⟨0x3fe0000000000000⟩, ⟨0x3fe0000000000000⟩)]).implies ∅
      (.unit ⟨"a", [], true⟩)).run {}).1 = .ok false := by
  have top : (Theory.ofRules [(.unit ⟨"a", [], true⟩, ⟨0x3fe0000000000000⟩)]).maxNecessity? =
      some ⟨0x3fe0000000000000⟩ := by decide +kernel
  refine ⟨⟨fun _ => true, by decide +kernel, by decide +kernel, ?_⟩, by decide +kernel, by decide +kernel⟩
  rw [top]
  rintro _ ⟨⟩
  decide +kernel

end IntervalTheory

end Defeasible
