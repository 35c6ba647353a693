import Defeasible.Proofs.Closure.Ranking
import Defeasible.Proofs.Search.Optimizer
import Defeasible.Proofs.Theory.Drowning
import Defeasible.Proofs.Theory.Equivalence
import Defeasible.Theory.Coverage

/-! Coverage asks one question for each rule. What is left out without a question is not implied, and asking a
theory without its drowned levels is as good as asking the theory, unless everything was drowned. -/

namespace Defeasible

namespace Theory

variable {t u : Theory} {E : Error → Prop} {r : DefaultRule} {rs examples : List DefaultRule} {w : World}
  {c : Clause} {l : Literal}

/-! ### Rules without a chance -/

def falsify (w : World) (c : Clause) : World := fun p =>
  if c.has p then false else if c.has p.negate then true else w p

theorem not_holds_falsify (contingent : ¬ c.isTautology = true) : ¬ c.Holds (falsify w c) := by
  rintro ⟨l, hl, holds⟩
  have has : c.has l = true := OrdSet.has_eq_true.2 hl
  unfold Literal.Holds falsify at holds
  cases polarity : l.polarity with
  | true =>
    have positive : l.positive = l := by rw [Literal.positive, ← polarity]
    rw [positive, has, if_pos rfl, polarity] at holds
    cases holds
  | false =>
    have positive : l.positive = l.negate := by rw [Literal.positive, Literal.negate, polarity]; rfl
    have opposite : c.has l.negate = false := by
      refine Bool.eq_false_iff.2 fun opposite => contingent ?_
      exact List.any_eq_true.2 ⟨l, hl, by rw [polarity, opposite]; rfl⟩
    rw [positive, opposite, Literal.negate_negate, has, polarity] at holds
    cases holds

theorem holds_falsify (not_mem : ¬ l ∈ c) (holds : l.Holds w) : l.Holds (falsify w c) := by
  have has : c.has l = false := Bool.eq_false_iff.2 fun has => not_mem (OrdSet.has_eq_true.1 has)
  unfold Literal.Holds at holds ⊢
  unfold falsify
  cases polarity : l.polarity with
  | true =>
    have positive : l.positive = l := by rw [Literal.positive, ← polarity]
    rw [positive, polarity] at holds
    rw [positive, has, if_neg Bool.false_ne_true]
    split
    · rfl
    · exact holds
  | false =>
    have positive : l.positive = l.negate := by rw [Literal.positive, Literal.negate, polarity]; rfl
    rw [positive, polarity] at holds
    rw [positive, Literal.negate_negate, has, if_neg Bool.false_ne_true]
    split
    · rfl
    · exact holds

def literals (t : Theory) : LiteralSet := .ofList (t.clauses.flatMap Clause.toList)

theorem mem_literals : l ∈ t.literals ↔ ∃ c ∈ t.clauses, l ∈ c :=
  OrdSet.mem_ofList.trans List.mem_flatMap

/-- Where no literal of a contingent consequent is among those of the theory or the antecedent, all of them can be
made false in a model of the antecedent. -/
theorem mayImply_of_entails (entails : t.Entails r.evidence r.consequent) : mayImply t.literals r = true := by
  by_contra no_chance
  rw [mayImply, Bool.or_eq_true, not_or, List.any_eq_true] at no_chance
  obtain ⟨contingent, absent⟩ := no_chance
  have absent (l : Literal) (hl : l ∈ r.consequent) : ¬ l ∈ t.literals ∧ ¬ l ∈ r.antecedent := by
    have some : ¬ (t.literals.has l || r.antecedent.has l) = true := fun found => absent ⟨l, hl, found⟩
    rw [Bool.or_eq_true, not_or] at some
    exact ⟨fun mem => some.1 (OrdSet.has_eq_true.2 mem), fun mem => some.2 (OrdSet.has_eq_true.2 mem)⟩
  rcases entails with always | ⟨n, preferred, holds⟩
  · exact contingent (Clause.isTautology_iff.2 always)
  obtain ⟨w, model⟩ := preferred.consistent
  refine not_holds_falsify contingent (holds (falsify w r.consequent) ⟨fun c hc => ?_, fun l hl => ?_⟩)
  · obtain ⟨l, hl, true⟩ := model.cut c hc
    have occurs : l ∈ t.literals := mem_literals.2 ⟨c, mem_clauses_of_mem_cut hc, hl⟩
    exact ⟨l, hl, holds_falsify (fun mem => (absent l mem).1 occurs) true⟩
  · exact holds_falsify (fun mem => (absent l mem).2 hl) (model.evidence l hl)

/-! ### The shares of the workers -/

theorem flatten_shares {size fuel : Nat} (pos : 0 < size) (enough : rs.length ≤ fuel) :
    (shares size fuel rs).flatten = rs := by
  induction fuel generalizing rs with
  | zero => exact (List.length_eq_zero_iff.1 (Nat.le_zero.1 enough)).symm
  | succ fuel ih =>
    cases rs with
    | nil => rfl
    | cons r rs =>
      have left : ((r :: rs).drop size).length ≤ fuel := by
        rw [List.length_drop]
        omega
      rw [shares, List.flatten_cons, ih left, List.take_append_drop]

theorem size_pos {workers : Nat} (pos : 0 < workers) (some : examples ≠ []) :
    0 < (examples.length + workers - 1) / workers := by
  have := List.length_pos_iff.2 some
  exact Nat.div_pos (by omega) pos

def covers (t : Theory) (r : DefaultRule) : Query Bool :=
  if mayImply t.literals r then t.implies r.evidence r.consequent else pure false

theorem coveredShare_cons (t : Theory) (r : DefaultRule) (rs : List DefaultRule) :
    t.coveredShare t.literals (r :: rs) = do
      let covered ← t.covers r
      let others ← t.coveredShare t.literals rs
      return if covered then r :: others else others := by
  rw [coveredShare, covers]
  split <;> rfl

section Asking

variable {implied : DefaultRule → Bool} (regular : t.Regular) (ground : ∀ c ∈ t.clauses, c.isGround = true)
  (solves : t.Solves E) (implied_iff : ∀ r, implied r = true ↔ t.Entails r.evidence r.consequent)

include regular ground solves implied_iff

theorem covers_meets (ground_rule : r.Ground) : (t.covers r).Meets (· = implied r) E := by
  rw [covers]
  split
  · refine (implies_meets regular ground solves (List.all_eq_true.1 ground_rule.antecedent)
      ground_rule.consequent).imp fun b found => ?_
    exact Bool.eq_iff_iff.2 (found.trans (implied_iff r).symm)
  · next no_chance =>
    refine .pure (Bool.eq_false_iff.2 fun holds => no_chance ?_).symm
    exact mayImply_of_entails ((implied_iff r).1 holds)

theorem coveredShare_meets (ground_rules : ∀ r ∈ rs, r.Ground) :
    (t.coveredShare t.literals rs).Meets (· = rs.filter implied) E := by
  induction rs with
  | nil => exact .pure rfl
  | cons r rs ih =>
    obtain ⟨ground_rule, ground_rules⟩ := List.forall_mem_cons.1 ground_rules
    rw [coveredShare_cons]
    refine (covers_meets regular ground solves implied_iff ground_rule).bind fun b found => ?_
    refine (ih ground_rules).bind fun others rest => .pure ?_
    rw [found, rest, List.filter_cons]

end Asking

/-! ### Attempts -/

section Attempts

variable {α β : Type} {f : α → Query β} {g : α → β} {as : List α} {results : List (Except Error β)}

def Attempted (g : α → β) (E : Error → Prop) : List α → List (Except Error β) → Prop :=
  List.Forall₂ fun a result => result = .ok (g a) ∨ ∃ e, result = .error e ∧ E e

theorem attemptAll_meets {E' : Error → Prop} (each : ∀ a ∈ as, (f a).Meets (· = g a) E) :
    (attemptAll (as.map f)).Meets (Attempted g E as) E' := by
  induction as with
  | nil => exact .pure .nil
  | cons a as ih =>
    obtain ⟨first, each⟩ := List.forall_mem_cons.1 each
    intro s truthful
    obtain ⟨result, s', asked, truthful', right⟩ : ∃ result s', (f a).run s = (result, s') ∧ s'.Truthful ∧
        (result = .ok (g a) ∨ ∃ e, result = .error e ∧ E e) := by
      rcases first s truthful with ⟨_, s', run, truthful, rfl⟩ | ⟨e, s', run, truthful, h⟩
      · exact ⟨_, s', run, truthful, .inl rfl⟩
      · exact ⟨_, s', run, truthful, .inr ⟨e, rfl, h⟩⟩
    have step {rest : Except Error (List (Except Error β)) × Session}
        (run : (attemptAll (as.map f)).run s' = rest) : (attemptAll ((a :: as).map f)).run s =
          (rest.1.map (result :: ·), rest.2) := by
      rw [List.map_cons, attemptAll, Query.run, asked]
      dsimp only
      rw [run]
      rcases rest with ⟨_ | _, _⟩ <;> rfl
    rcases ih each s' truthful' with ⟨results, s'', run, truthful, attempted⟩ | ⟨e, s'', run, truthful, h⟩
    · exact .inl ⟨_, s'', step run, truthful, .cons right attempted⟩
    · exact .inr ⟨e, s'', step run, truthful, h⟩

theorem mem_of_failure? {e : Error} (failed : failure? results = some e) : .error e ∈ results := by
  have mem := (Option.or_eq_some_iff.1 failed).elim (fun found => List.mem_of_find?_eq_some found)
    fun found => List.mem_of_head? found.2
  obtain ⟨result, mem, same⟩ := List.mem_filterMap.1 mem
  cases result with
  | ok b => cases same
  | error e' => exact Option.some.inj same ▸ mem

theorem failure?_isSome {e : Error} (mem : .error e ∈ results) : (failure? results).isSome = true := by
  rw [failure?, Option.isSome_or, Bool.or_eq_true]
  refine .inr (Option.isSome_iff_ne_none.2 (List.head?_eq_none_iff.not.2 ?_))
  exact List.ne_nil_of_mem (List.mem_filterMap.2 ⟨_, mem, rfl⟩)

theorem Attempted.error {e : Error} (attempted : Attempted g E as results) (mem : .error e ∈ results) : E e := by
  induction attempted with
  | nil => cases mem
  | cons right _ ih =>
    rcases List.mem_cons.1 mem with rfl | mem
    · obtain ⟨e', same, h⟩ := right.resolve_left nofun
      cases same
      exact h
    · exact ih mem

theorem Attempted.results_eq (attempted : Attempted g E as results) (none : ∀ e, ¬ .error e ∈ results) :
    results = as.map (.ok ∘ g) := by
  induction attempted with
  | nil => rfl
  | cons right _ ih =>
    rcases right with rfl | ⟨e, rfl, -⟩
    · exact congrArg (_ :: ·) (ih fun e mem => none e (List.mem_cons_of_mem _ mem))
    · exact absurd List.mem_cons_self (none e)

theorem Attempted.cases (attempted : Attempted g E as results) :
    failure? results = none ∧ results = as.map (.ok ∘ g) ∨ ∃ e, failure? results = some e ∧ E e := by
  cases failed : failure? results with
  | none =>
    refine .inl ⟨rfl, attempted.results_eq fun e mem => ?_⟩
    have some := failure?_isSome mem
    rw [failed] at some
    cases some
  | some e => exact .inr ⟨e, rfl, attempted.error (mem_of_failure? failed)⟩

end Attempts

/-! ### Covered rules -/

def before (r r' : DefaultRule) : Bool := (compare r.text r'.text).isLE

theorem before_total (r r' : DefaultRule) : before r r' = true ∨ before r' r = true := by
  rw [before, before, Std.OrientedOrd.eq_swap (a := r'.text)]
  cases compare r.text r'.text <;> decide

theorem before_trans (r r' r'' : DefaultRule) (first : before r r' = true) (second : before r' r'' = true) :
    before r r'' = true :=
  Std.TransOrd.isLE_trans first second

theorem covered_meets {implied : DefaultRule → Bool} (regular : t.Regular) (populated : t.Populated)
    (ground : ∀ c ∈ t.clauses, c.isGround = true) (probable : t.settings.Probable) (undrowned : t.Undrowned u)
    (implied_iff : ∀ r, implied r = true ↔ u.Entails r.evidence r.consequent)
    (ground_examples : ∀ r ∈ examples, r.Ground) :
    (t.covered examples).Meets (· = stableSort before (examples.filter implied)) t.settings.Hinders := by
  have regular' := (undrowned.regular regular).settle
  have ground' : ∀ c ∈ u.settle.clauses, c.isGround = true := fun c hc =>
    ground c (undrowned.mem_clauses regular populated hc)
  have solves' : u.settle.Solves t.settings.Hinders := by
    have same : u.settle.settings = t.settings := undrowned.settings_eq
    rw [← same] at probable ⊢
    exact solves_within probable
  have implied_iff' (r : DefaultRule) : implied r = true ↔ u.settle.Entails r.evidence r.consequent :=
    (implied_iff r).trans (equivalent_settle u).entails_iff.symm
  unfold covered
  refine (withoutDrowned_meets regular ground (solves_within probable)).bind fun u' undrowned' => ?_
  obtain rfl := undrowned.unique undrowned'
  dsimp only
  split
  · next none => exact .pure (by rw [List.isEmpty_iff.1 none]; rfl)
  next some =>
  set workers := max u.settle.settings.workers.value 1
  set size := (examples.length + workers - 1) / workers
  have flatten : (shares size examples.length examples).flatten = examples :=
    flatten_shares (size_pos (by omega) (List.isEmpty_iff.not.1 some)) (Nat.le_refl _)
  have each : ∀ share ∈ shares size examples.length examples,
      (u.settle.coveredShare u.settle.literals share).Meets (· = share.filter implied) t.settings.Hinders := by
    intro share mem
    refine coveredShare_meets regular' ground' solves' implied_iff' fun r hr => ground_examples r ?_
    rw [← flatten]
    exact List.mem_flatten_of_mem mem hr
  refine (attemptAll_meets each).bind fun results attempted => ?_
  rcases attempted.cases with ⟨none, rfl⟩ | ⟨e, failed, h⟩
  · rw [none]
    refine .pure (congrArg (stableSort before) ?_)
    have parts := congrArg (List.filter implied) flatten
    rw [List.filter_flatten] at parts
    rw [List.flatMap_map]
    exact parts
  · rw [failed]
    exact .throw h

/-! ### Consequences without drowned levels -/

theorem drowned_of_inconsistent (inconsistent : ∀ w, ¬ ∀ c ∈ t.hardRules, c.Holds w) (evidence : Evidence)
    (n : Necessity) : ¬ t.Preferred evidence n := by
  rintro ⟨-, ⟨w, model⟩, -⟩
  exact inconsistent w fun c hc => model.cut c (mem_cut.2 (.inr hc))

/-- Without its drowned levels a theory implies all that it implied, and no more if any level is preferred before
there is evidence, so that only rules that it implies are covered. If none is, the hard rules go with the levels: the
theory implied no more than what cannot fail, and what follows from the evidence alone is implied then. -/
theorem undrowned_consequences (t : Theory) (regular : t.Regular) (populated : t.Populated)
    (ground : ∀ c ∈ t.clauses, c.isGround = true) (probable : t.settings.Probable) :
    ∃ level u, (t.preferredLevel ∅).Answers t.settings level ∧ t.withoutDrowned.Answers t.settings u ∧
      (∀ (evidence : Evidence) (c : Clause), (∀ l ∈ evidence, l.isGround = true) → c.isGround = true →
        ∃ b b', (t.implies evidence c).Answers t.settings b ∧ (u.implies evidence c).Answers t.settings b' ∧
          (b = true → b' = true) ∧ (level.isSome = true → b' = b) ∧
          (level = none → (b = true ↔ ∀ w, c.Holds w) ∧
            (b' = true ↔ (∀ w, c.Holds w) ∨
              (∃ w : World, ∀ l ∈ evidence, l.Holds w) ∧ ∀ w : World, (∀ l ∈ evidence, l.Holds w) → c.Holds w))) ∧
      (level.isSome = true → ∀ examples : List DefaultRule, (∀ r ∈ examples, r.Ground) →
        (t.covered examples).Meets
          (fun found => ∀ r ∈ found, r ∈ examples ∧ (t.implies r.evidence r.consequent).Answers t.settings true)
          t.settings.Hinders) ∧
      (level = none → u = { settings := t.settings }) ∧
      ((∀ w, ¬ ∀ d ∈ t.hardRules, d.Holds w) → level = none) := by
  classical
  obtain ⟨level, level_iff⟩ := t.exists_level ∅
  obtain ⟨u, undrowned⟩ := t.exists_undrowned
  have nothing : ∀ l ∈ (∅ : Evidence), l.isGround = true := fun l hl => absurd hl (OrdSet.not_mem_empty l)
  have solves := solves_within probable
  have emptied (none : level = none) : (∀ n ∈ t.degrees, ¬ t.ConsistentAt n ∅) ∧ u = { settings := t.settings } :=
    undrowned.drowned fun n preferred => by rw [(level_iff n).2 preferred] at none; cases none
  have ground' : ∀ c ∈ u.clauses, c.isGround = true := fun c hc =>
    ground c (undrowned.mem_clauses regular populated hc)
  refine ⟨level, u, preferredLevel_answers regular ground probable nothing level_iff,
    (withoutDrowned_meets regular ground solves).answers fun _ found => found.unique undrowned,
    fun evidence c ground_evidence ground_consequent => ?_, fun some examples ground_examples => ?_,
    fun none => (emptied none).2, fun inconsistent => ?_⟩
  · refine ⟨decide (t.Entails evidence c), decide (u.Entails evidence c),
      implies_answers regular ground probable ground_evidence ground_consequent decide_eq_true_iff, ?_,
      fun entails => ?_, fun some => ?_, fun none => ?_⟩
    · rw [← undrowned.settings_eq] at probable ⊢
      exact implies_answers (undrowned.regular regular) ground' probable ground_evidence ground_consequent
        decide_eq_true_iff
    · exact decide_eq_true (undrowned.entails regular populated (of_decide_eq_true entails))
    · obtain ⟨n, preferred⟩ := Option.isSome_iff_exists.1 some
      exact decide_eq_decide.2 (undrowned.entails_iff regular populated ((level_iff n).1 preferred))
    · obtain ⟨drowned, rfl⟩ := emptied none
      rw [decide_eq_true_iff, decide_eq_true_iff]
      exact ⟨entails_of_drowned drowned, entails_of_no_rules rfl rfl⟩
  · obtain ⟨n, preferred⟩ := Option.isSome_iff_exists.1 some
    have implied_iff (r : DefaultRule) : decide (t.Entails r.evidence r.consequent) = true ↔
        u.Entails r.evidence r.consequent :=
      decide_eq_true_iff.trans (undrowned.entails_iff regular populated ((level_iff n).1 preferred)).symm
    refine (covered_meets regular populated ground probable undrowned implied_iff ground_examples).imp ?_
    rintro _ rfl r hr
    obtain ⟨mem, entails⟩ := List.mem_filter.1 ((stableSort_perm _ _).mem_iff.1 hr)
    have ground_rule := ground_examples r mem
    exact ⟨mem, implies_answers regular ground probable (List.all_eq_true.1 ground_rule.antecedent)
      ground_rule.consequent (iff_of_true rfl (of_decide_eq_true entails))⟩
  · refine Option.eq_none_iff_forall_ne_some.2 fun n found => ?_
    exact drowned_of_inconsistent inconsistent ∅ n ((level_iff n).1 found)

def overruled : Theory :=
  ofStrata [.singleton (.unit ⟨"a", [], true⟩), .singleton (.unit ⟨"a", [], false⟩)]

theorem undrowned_consequences_overruled :
    ∃ u s', overruled.withoutDrowned.run {} = (.ok u, s') ∧ u.levels.length = 1 ∧
    ∀ (evidence : Evidence) (c : Clause), (∀ l ∈ evidence, l.isGround = true) → c.isGround = true →
      ∃ b s' u', (overruled.implies evidence c).run {} = (.ok b, s') ∧
        (u.implies evidence c).run {} = (.ok b, u') := by
  obtain ⟨level, u, found, made, same, -⟩ := undrowned_consequences overruled (regular_ofStrata _)
    (populated_ofStrata _) (by decide +kernel) Settings.probable_default
  obtain ⟨s', found, -⟩ := found.run rfl (Session.truthful_new _)
  have preferred : level.isSome = true := by
    have level_eq : ((overruled.preferredLevel ∅).run {}).1 = .ok (some (.ofLevel 1 2)) := by decide +kernel
    rw [found] at level_eq
    rw [Except.ok.inj level_eq]
    rfl
  obtain ⟨s', made, -⟩ := made.run rfl (Session.truthful_new _)
  have kept : (overruled.withoutDrowned.run {}).1.toOption.map (·.levels.length) = some 1 := by decide +kernel
  rw [made] at kept
  refine ⟨u, s', made, Option.some.inj kept, fun evidence c ground_evidence ground_consequent => ?_⟩
  obtain ⟨b, b', implied, implied', -, same, -⟩ := same evidence c ground_evidence ground_consequent
  obtain ⟨s', implied, -⟩ := implied.run rfl (Session.truthful_new _)
  obtain ⟨u', implied', -⟩ := implied'.run rfl (Session.truthful_new _)
  exact ⟨b, s', u', implied, same preferred ▸ implied'⟩

def inconsistent : Theory :=
  (ofStrata [.singleton (.unit ⟨"a", [], true⟩)]).withHardRules
    (.ofList [.unit ⟨"b", [], true⟩, .unit ⟨"b", [], false⟩])

theorem undrowned_implies_more :
    inconsistent.isGround = true ∧ inconsistent.settings.solveLimit? = none ∧
      ((inconsistent.implies (.singleton ⟨"a", [], true⟩) (.unit ⟨"a", [], true⟩)).run {}).1 = .ok false ∧
      ((do (← inconsistent.withoutDrowned).implies (.singleton ⟨"a", [], true⟩) (.unit ⟨"a", [], true⟩)).run
        {}).1 = .ok true ∧
      ((inconsistent.covered [⟨.unit ⟨"a", [], true⟩, .unit ⟨"a", [], true⟩⟩]).run {}).1 =
        .ok [⟨.unit ⟨"a", [], true⟩, .unit ⟨"a", [], true⟩⟩] := by
  decide +kernel

def countermanded : Theory :=
  (ofStrata [.singleton (.unit ⟨"b", [], false⟩)]).withHardRules (.singleton (.unit ⟨"b", [], true⟩))

/-- Where the most certain level is drowned, hard rules go that are consistent, and what they exclude is implied. -/
theorem undrowned_loses_hardRules :
    countermanded.isGround = true ∧ countermanded.settings.solveLimit? = none ∧
      (∃ w, ∀ c ∈ countermanded.hardRules, c.Holds w) ∧
      ((countermanded.solve ∅).run {}).1 = .ok none ∧
      (countermanded.withoutDrowned.run {}).1.map hardRules = .ok ∅ ∧
      ((countermanded.implies (.singleton ⟨"b", [], false⟩) (.unit ⟨"b", [], false⟩)).run {}).1 = .ok false ∧
      ((do (← countermanded.withoutDrowned).implies (.singleton ⟨"b", [], false⟩) (.unit ⟨"b", [], false⟩)).run
        {}).1 = .ok true ∧
      ((countermanded.covered [⟨.unit ⟨"b", [], false⟩, .unit ⟨"b", [], false⟩⟩]).run {}).1 =
        .ok [⟨.unit ⟨"b", [], false⟩, .unit ⟨"b", [], false⟩⟩] := by
  refine ⟨by decide +kernel, rfl, ⟨fun _ => true, by decide +kernel⟩, ?_⟩
  decide +kernel

end Theory

end Defeasible
