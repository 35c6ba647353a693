import Defeasible.Proofs.Counting.Enumeration
import Defeasible.Proofs.Theory.Query
import Defeasible.Theory.Probability

/-! What the model counts of cuts tell. Each cut is counted over its own atoms, so counts of different cuts can be
subtracted only after each is scaled to the atoms of the theory, or where the smaller cut has all of them. -/

namespace Defeasible.Theory

variable {t : Theory} {n m : Necessity} {clauses : List Clause} {settings : Settings} {E : Error → Prop}

def vocabulary (t : Theory) : Finset Literal := t.atoms.toList.toFinset

def freeAtoms (t : Theory) (n : Necessity) : Finset Literal := t.vocabulary \ atomsOf (t.cut n).toList

def violating (t : Theory) (n m : Necessity) : Finset (Finset Literal) :=
  (models t.vocabulary (t.cut m).toList).filter fun v => ¬ ∀ c ∈ (t.cut n).toList, c.Holds (.ofAtoms v)

theorem mem_vocabulary {p : Literal} : p ∈ t.vocabulary ↔ p ∈ atomsOf t.clauses ∨ p ∈ t.additionalAtoms := by
  rw [vocabulary, List.mem_toFinset, OrdSet.mem_toList, atoms, OrdSet.mem_union, OrdSet.mem_ofList, atomsOf,
    List.mem_toFinset]

theorem atomsOf_cut_subset (t : Theory) (n : Necessity) : atomsOf (t.cut n).toList ⊆ t.vocabulary := by
  have within : atomsOf (t.cut n).toList ⊆ atomsOf t.clauses := atomsOf_mono fun c hc => mem_clauses_of_mem_cut hc
  exact fun p hp => mem_vocabulary.2 (.inl (within hp))

/-! ### Differences -/

theorem card_add_card_violating (le : n ≤ m) :
    (models t.vocabulary (t.cut n).toList).card + (t.violating n m).card =
      (models t.vocabulary (t.cut m).toList).card := by
  have smaller : models t.vocabulary (t.cut n).toList =
      (models t.vocabulary (t.cut m).toList).filter fun v => ∀ c ∈ (t.cut n).toList, c.Holds (.ofAtoms v) := by
    ext v
    rw [Finset.mem_filter, mem_models, mem_models]
    constructor
    · exact fun ⟨within, holds⟩ => ⟨⟨within, fun c hc => holds c (cut_anti le hc)⟩, holds⟩
    · exact fun ⟨⟨within, _⟩, holds⟩ => ⟨within, holds⟩
  rw [smaller, violating]
  exact Finset.card_filter_add_card_filter_not _

theorem modelCount_scaled (le : n ≤ m) :
    modelCount (t.cut n).toList * Nat.pow 2 (t.freeAtoms n).card + (t.violating n m).card =
      modelCount (t.cut m).toList * Nat.pow 2 (t.freeAtoms m).card := by
  rw [freeAtoms, freeAtoms, ← card_models (t.atomsOf_cut_subset n), ← card_models (t.atomsOf_cut_subset m)]
  exact card_add_card_violating le

theorem modelCount_unscaled (le : n ≤ m) (all : ∀ p ∈ t.atoms, p ∈ atomsOf (t.cut m).toList) :
    modelCount (t.cut n).toList + (t.violating n m).card = modelCount (t.cut m).toList := by
  have covered : t.vocabulary ⊆ atomsOf (t.cut m).toList := fun p hp => all p (List.mem_toFinset.1 hp)
  have covered' : t.vocabulary ⊆ atomsOf (t.cut n).toList :=
    covered.trans (atomsOf_mono fun c hc => cut_anti le hc)
  have one : Nat.pow 2 0 = 1 := rfl
  have scaled := modelCount_scaled (t := t) le
  rwa [freeAtoms, freeAtoms, Finset.sdiff_eq_empty_iff_subset.2 covered,
    Finset.sdiff_eq_empty_iff_subset.2 covered', Finset.card_empty, one, Nat.mul_one, Nat.mul_one] at scaled

/-! ### Counting cuts -/

section Counting

variable {count : Counter}

theorem cutCounts_attains
    (counts : ∀ n ∈ t.weights, (count (t.cut n).toList).Attains (· = modelCount (t.cut n).toList) E) :
    (t.cutCounts count).Attains (· = t.weights.map fun n => log2 (modelCount (t.cut n).toList)) E :=
  .mapM fun n hn => (counts n hn).bind fun _ counted => .pure (congrArg log2 counted)

def rulesCount (t : Theory) (rules : List Clause) : Float :=
  log2 (modelCount rules) +
    (UInt64.ofNat (t.atoms.diff (.ofList ((rules.flatMap Clause.toList).map Literal.positive))).size).toFloat

def subtracted (t : Theory) (rules : List Clause) : List Float :=
  (t.weights.map fun n => log2 (modelCount (t.cut n).toList)) ++ [t.rulesCount rules]

theorem probability_attains {rules : List Clause}
    (counts : ∀ n ∈ t.weights, (count ((t.addHardRules (.ofList rules)).cut n).toList).Attains
      (· = modelCount ((t.addHardRules (.ofList rules)).cut n).toList) E)
    (count_rules : (count rules).Attains (· = modelCount rules) E) :
    (t.probability rules count).Attains
      (· = (summands t.weights ((t.addHardRules (.ofList rules)).subtracted rules)).foldl (· + ·) (-0.0)) E := by
  refine (cutCounts_attains (t := t.addHardRules (.ofList rules)) counts).bind fun _ found => ?_
  refine count_rules.bind fun _ found' => .pure ?_
  rw [found, found']
  rfl

end Counting

/-- What a probability subtracts are the logarithms of exact counts, each over the atoms of its cut. Scaled to the atoms
of the theory and the rules, the counts of two cuts in a row differ by the number of valuations that satisfy the upper
cut and falsify the lower one; where the upper cut mentions all atoms, so do the counts themselves. -/
theorem counts_differ (t : Theory) (regular : t.Regular) (ground : ∀ c ∈ t.clauses, c.isGround = true)
    (rules : List Clause) (ground_rules : ∀ c ∈ rules, c.isGround = true) (settings : Settings)
    (probable : settings.Probable) :
    let u := t.addHardRules (.ofList rules)
    (t.probability rules (Counter.enumeration settings)).Answers settings
      ((summands t.weights (u.subtracted rules)).foldl (· + ·) (-0.0)) ∧
    (∀ n ∈ t.weights, (Counter.enumeration settings (u.cut n).toList).Answers settings
      (modelCount (u.cut n).toList)) ∧
    ∀ i n m, t.weights[i]? = some n → t.weights[i + 1]? = some m →
      modelCount (u.cut n).toList * Nat.pow 2 (u.freeAtoms n).card + (u.violating n m).card =
        modelCount (u.cut m).toList * Nat.pow 2 (u.freeAtoms m).card ∧
      ((∀ p ∈ u.atoms, p ∈ atomsOf (u.cut m).toList) →
        modelCount (u.cut n).toList + (u.violating n m).card = modelCount (u.cut m).toList) := by
  intro u
  have counts (n : Necessity) :
      (Counter.enumeration settings (u.cut n).toList).Attains (· = modelCount (u.cut n).toList) settings.Hinders := by
    refine (Counter.enumeration_attains probable fun c hc => ?_).imp_error fun _ cut => cut.hinders
    rcases mem_cut.1 hc with ⟨l, hl, -, hc⟩ | hc
    · exact ground c (mem_clauses.2 (.inl ⟨l, hl, hc⟩))
    · rcases OrdSet.mem_union.1 hc with hc | hc
      · exact ground c (mem_clauses.2 (.inr hc))
      · exact ground_rules c (OrdSet.mem_ofList.1 hc)
  have count_rules := (Counter.enumeration_attains probable ground_rules).imp_error fun _ cut => cut.hinders
  refine ⟨(probability_attains (fun n _ => counts n) count_rules).meets, fun n _ => (counts n).meets,
    fun i n m hn hm => ?_⟩
  have le : n ≤ m := Necessity.le_of_lt (weights_lt regular.ascending (Nat.lt_succ_self i) hn hm)
  exact ⟨modelCount_scaled le, modelCount_unscaled le⟩

theorem counts_differ_nested :
    let t := ofStrata [.singleton (.unit ⟨"a", [], true⟩),
      .singleton (.ofList [⟨"a", [], true⟩, ⟨"b", [], true⟩])]
    let u := t.addHardRules (.ofList [])
    modelCount (u.cut (.ofLevel 0 2)).toList + (u.violating (.ofLevel 0 2) (.ofLevel 1 2)).card =
        modelCount (u.cut (.ofLevel 1 2)).toList ∧
      modelCount (u.cut (.ofLevel 0 2)).toList = 2 ∧ (u.violating (.ofLevel 0 2) (.ofLevel 1 2)).card = 1 ∧
      ∃ s', (Counter.enumeration {} (u.cut (.ofLevel 1 2)).toList).run {} = (.ok 3, s') := by
  intro t u
  obtain ⟨-, counts, differ⟩ := counts_differ t (regular_ofStrata _) (by decide +kernel) [] nofun {}
    Settings.probable_default
  have three : modelCount (u.cut (.ofLevel 1 2)).toList = 3 := by decide +kernel
  obtain ⟨s', run, -⟩ := (counts (.ofLevel 1 2) (by decide +kernel)).run rfl (Session.truthful_new fun _ _ => 0)
  refine ⟨(differ 0 _ _ (by decide +kernel) (by decide +kernel)).2 (by decide +kernel), by decide +kernel,
    by decide +kernel, s', ?_⟩
  rw [← three]
  exact run

def widening : Theory :=
  ofLevels [⟨⟨0x3fe0000000000000⟩, .singleton (.ofList [⟨"a", [], true⟩, ⟨"b", [], true⟩])⟩,
    ⟨⟨0x3fe8000000000000⟩, .singleton (.unit ⟨"a", [], true⟩)⟩]

/-- The lower of two cuts can have the greater count, where no valuation is in between. -/
theorem counts_decrease :
    let u := widening.addHardRules (.ofList [])
    widening.isGround = true ∧ widening.weights = [⟨0x3fe0000000000000⟩, ⟨0x3fe8000000000000⟩] ∧
    (∃ s, (Counter.enumeration {} (u.cut ⟨0x3fe0000000000000⟩).toList).run {} = (.ok 2, s)) ∧
    (∃ s, (Counter.enumeration {} (u.cut ⟨0x3fe8000000000000⟩).toList).run {} = (.ok 1, s)) ∧
    (u.violating ⟨0x3fe0000000000000⟩ ⟨0x3fe8000000000000⟩).card = 0 := by
  intro u
  have counted (n : Necessity) (N : Nat)
      (run : ((Counter.enumeration {} (u.cut n).toList).run {}).1 = .ok N) :
      ∃ s, (Counter.enumeration {} (u.cut n).toList).run {} = (.ok N, s) := ⟨_, Prod.ext run rfl⟩
  exact ⟨by decide +kernel, by decide +kernel, counted _ _ (by decide +kernel), counted _ _ (by decide +kernel),
    by decide +kernel⟩

end Defeasible.Theory
