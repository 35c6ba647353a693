import Defeasible.Proofs.Session
import Defeasible.Proofs.Theory.Basic
import Defeasible.Theory.Query

/-! Queries are exact: halving finds the lowest necessity whose cut is consistent with the evidence, as
consistency is passed on from each cut to the smaller ones above it. Answers are right for any theory, and for a
ground theory there is an answer unless the limit is reached. -/

namespace Defeasible.Theory

variable {t : Theory} {E : Error → Prop} {evidence : Evidence} {n m : Necessity} {w : World}

structure ModelAt (t : Theory) (n : Necessity) (evidence : Evidence) (w : World) : Prop where
  cut : ∀ c ∈ t.cut n, c.Holds w
  evidence : ∀ l ∈ evidence, l.Holds w

theorem ModelAt.mono (model : t.ModelAt n evidence w) (le : n ≤ m) : t.ModelAt m evidence w :=
  ⟨fun c hc => model.cut c (cut_anti le hc), model.evidence⟩

def ConsistentAt (t : Theory) (n : Necessity) (evidence : Evidence) : Prop := ∃ w, t.ModelAt n evidence w

theorem ConsistentAt.mono (consistent : t.ConsistentAt n evidence) (le : n ≤ m) :
    t.ConsistentAt m evidence :=
  consistent.imp fun _ model => model.mono le

def degrees (t : Theory) : List Necessity := if t.weights.isEmpty then [.certain] else t.weights

theorem degrees_of_empty (empty : t.levels = []) : t.degrees = [.certain] := by
  rw [degrees, weights, empty]
  rfl

theorem degrees_of_mem_weights (mem : n ∈ t.weights) : t.degrees = t.weights :=
  if_neg (by simp [List.isEmpty_iff, List.ne_nil_of_mem mem])

theorem mem_degrees_of_mem_weights (mem : n ∈ t.weights) : n ∈ t.degrees := by
  rwa [degrees_of_mem_weights mem]

/-- The lowest degree whose cut is consistent with the evidence. -/
structure Preferred (t : Theory) (evidence : Evidence) (n : Necessity) : Prop where
  mem : n ∈ t.degrees
  consistent : t.ConsistentAt n evidence
  lowest : ∀ m ∈ t.degrees, m < n → ¬ t.ConsistentAt m evidence

def Prefers (t : Theory) (evidence : Evidence) : Option (Witness × Necessity) → Prop
  | some (witness, n) => t.Preferred evidence n ∧ t.ModelAt n evidence witness.world
  | none => ∀ n ∈ t.degrees, ¬ t.ConsistentAt n evidence

theorem Prefers.isSome_iff {answer : Option (Witness × Necessity)} (prefers : t.Prefers evidence answer) :
    answer.isSome = true ↔ ∃ n ∈ t.degrees, t.ConsistentAt n evidence := by
  cases answer with
  | none => exact iff_of_false nofun fun ⟨n, hn, consistent⟩ => prefers n hn consistent
  | some found => exact iff_of_true rfl ⟨found.2, prefers.1.mem, prefers.1.consistent⟩

theorem Preferred.unique (hn : t.Preferred evidence n) (hm : t.Preferred evidence m) : n = m := by
  refine Necessity.eq_of_not_lt (fun lt => ?_) fun lt => ?_
  · exact hm.lowest n hn.mem lt hn.consistent
  · exact hn.lowest m hm.mem lt hm.consistent

/-- What evidence implies: what cannot fail, and what holds in all models at the preferred level. -/
def Entails (t : Theory) (evidence : Evidence) (c : Clause) : Prop :=
  (∀ w, c.Holds w) ∨ ∃ n, t.Preferred evidence n ∧ ∀ w, t.ModelAt n evidence w → c.Holds w

/-! ### Problems -/

theorem forall_units {ls : List Literal} : (∀ c ∈ units ls, c.Holds w) ↔ ∀ l ∈ ls, l.Holds w := by
  simp only [units, OrdSet.mem_ofList, List.forall_mem_map, Clause.holds_unit]

theorem over_units {p : Literal → Prop} {ls : List Literal} (all : ∀ l ∈ ls, p l) :
    ∀ c ∈ units ls, ∀ l ∈ c, p l := by
  simp only [units, OrdSet.mem_ofList, List.forall_mem_map, Clause.mem_unit, forall_eq]
  exact all

def Solves (t : Theory) (E : Error → Prop) : Prop :=
  ∀ problem : ClauseSet, (∀ c ∈ problem, c.isGround = true) →
    (t.solveProblem problem).Meets (Settles problem.toList []) E

theorem solves_within (probable : t.settings.Probable) : t.Solves t.settings.Hinders := by
  intro problem ground
  have fresh := Query.solveFresh_meets probable ground
  unfold solveProblem
  split
  · exact Query.remembered_meets fresh
  · exact fresh

theorem solves_of_untimed (probable : t.settings.Probable) (untimed : t.settings.solveLimit? = none) :
    t.Solves E :=
  fun problem ground => (solves_within probable problem ground).unhindered untimed

theorem models_problem : (∀ c ∈ t.cut n ∪ units evidence.toList, c.Holds w) ↔ t.ModelAt n evidence w := by
  simp only [OrdSet.mem_union, or_imp, forall_and, forall_units]
  exact ⟨fun h => ⟨h.1, h.2⟩, fun model => ⟨model.cut, model.evidence⟩⟩

theorem models_negated {c : Clause} :
    (∀ d ∈ t.cut n ∪ units evidence.toList ∪ units c.negated, d.Holds w) ↔
      t.ModelAt n evidence w ∧ ¬ c.Holds w := by
  rw [← models_problem, ← Clause.forall_negated, ← forall_units]
  simp only [OrdSet.mem_union (s := _ ∪ _), or_imp, forall_and]

/-! ### Halving -/

theorem weights_lt (ascending : Ascending t.levels) {i j : Nat} {a b : Necessity} (lt : i < j)
    (ha : t.weights[i]? = some a) (hb : t.weights[j]? = some b) : a < b := by
  have pairwise : t.weights.Pairwise (· < ·) := List.pairwise_map.2 ascending
  obtain ⟨hi, rfl⟩ := List.getElem?_eq_some_iff.1 ha
  obtain ⟨hj, rfl⟩ := List.getElem?_eq_some_iff.1 hb
  exact List.pairwise_iff_getElem.1 pairwise i j hi hj lt

structure Halving (t : Theory) (evidence : Evidence) (low high : Nat)
    (best : Option (Witness × Necessity)) : Prop where
  le : low ≤ high
  high_le : high ≤ t.weights.length
  below : ∀ i < low, ∀ n, t.weights[i]? = some n → ¬ t.ConsistentAt n evidence
  above : (high = t.weights.length ∧ best = none) ∨
    ∃ witness n, best = some (witness, n) ∧ t.weights[high]? = some n ∧ t.ModelAt n evidence witness.world

namespace Halving

variable {low high middle : Nat} {best : Option (Witness × Necessity)}

theorem lower (halving : Halving t evidence low high best) (lt : middle < high) (le : low ≤ middle)
    (weight : t.weights[middle]? = some n) {witness : Witness}
    (model : t.ModelAt n evidence witness.world) :
    Halving t evidence low middle (some (witness, n)) :=
  ⟨le, Nat.le_trans (Nat.le_of_lt lt) halving.high_le, halving.below, .inr ⟨witness, n, rfl, weight, model⟩⟩

theorem raise (halving : Halving t evidence low high best) (lt : middle < high)
    (ascending : Ascending t.levels) (weight : t.weights[middle]? = some n)
    (fails : ¬ t.ConsistentAt n evidence) : Halving t evidence (middle + 1) high best := by
  refine ⟨lt, halving.high_le, fun i hi m hm consistent => fails ?_, halving.above⟩
  rcases Nat.lt_or_eq_of_le (Nat.le_of_lt_succ hi) with lt | rfl
  · exact consistent.mono (Necessity.le_of_lt (weights_lt ascending lt hm weight))
  · rw [weight] at hm
    cases hm
    exact consistent

theorem prefers (halving : Halving t evidence low high best) (done : high ≤ low)
    (ascending : Ascending t.levels) (weighted : t.degrees = t.weights) : t.Prefers evidence best := by
  rcases halving.above with ⟨all, rfl⟩ | ⟨witness, n, rfl, weight, model⟩
  · intro n hn
    rw [weighted] at hn
    obtain ⟨i, hi, rfl⟩ := List.mem_iff_getElem.1 hn
    exact halving.below i (by omega) _ (List.getElem?_eq_getElem hi)
  · refine ⟨⟨?_, ⟨_, model⟩, fun m hm lt => ?_⟩, model⟩
    · rw [weighted]
      exact List.mem_of_getElem? weight
    · rw [weighted] at hm
      obtain ⟨i, hi, rfl⟩ := List.mem_iff_getElem.1 hm
      refine halving.below i (Nat.lt_of_lt_of_le ?_ done) _ (List.getElem?_eq_getElem hi)
      -- A weight below that at `high` stands before it.
      by_contra not_before
      have le : n ≤ t.weights[i] := by
        rcases Nat.lt_or_eq_of_le (Nat.not_lt.1 not_before) with lt | rfl
        · exact Necessity.le_of_lt (weights_lt ascending lt weight (List.getElem?_eq_getElem hi))
        · rw [List.getElem?_eq_getElem hi] at weight
          cases weight
          exact Necessity.le_refl _
      exact Necessity.not_lt.2 le lt

end Halving

/-! ### What may be asked -/

structure Askable (t : Theory) (asked : Literal → Prop) (E : Error → Prop) : Prop where
  ascending : Ascending t.levels
  admitted : t.requireGround.Meets (fun _ => True) E
  clauses : ∀ c ∈ t.clauses, ∀ l ∈ c, asked l
  negate : ∀ l, asked l → asked l.negate
  solves : ∀ problem : ClauseSet, (∀ c ∈ problem, ∀ l ∈ c, asked l) →
    (t.solveProblem problem).Meets (Settles problem.toList []) E

theorem askable_ground (regular : t.Regular) (ground : ∀ c ∈ t.clauses, c.isGround = true)
    (solves : t.Solves E) : t.Askable (·.isGround = true) E := by
  refine ⟨regular.ascending, ?_, fun c hc => List.all_eq_true.1 (ground c hc), fun _ => id,
    fun problem within => ?_⟩
  · have isGround : t.isGround = true := by rw [regular.recorded, List.all_eq_true.2 ground]
    rw [requireGround, if_pos isGround]
    exact .pure trivial
  · exact solves problem fun c hc => List.all_eq_true.2 (within c hc)

theorem askable_any (regular : t.Regular) (probable : t.settings.Probable) :
    t.Askable (fun _ => True) fun _ => True := by
  refine ⟨regular.ascending, ?_, fun _ _ _ _ => trivial, fun _ => id, fun problem _ => ?_⟩
  · rw [requireGround]
    split
    · exact .pure trivial
    · exact .throw trivial
  · unfold solveProblem
    split
    · exact Query.remembered_meets (Query.solveFresh_meets_any probable)
    · exact Query.solveFresh_meets_any probable

/-! ### Queries -/

def Finds (t : Theory) (n : Necessity) (evidence : Evidence) : Option Witness → Prop
  | some witness => t.ModelAt n evidence witness.world
  | none => ¬ t.ConsistentAt n evidence

namespace Askable

variable {asked : Literal → Prop} (askable : t.Askable asked E) (asked_evidence : ∀ l ∈ evidence, asked l)

include askable asked_evidence

theorem over_problem (n : Necessity) : ∀ c ∈ t.cut n ∪ units evidence.toList, ∀ l ∈ c, asked l := by
  intro c hc
  rcases OrdSet.mem_union.1 hc with hc | hc
  · exact askable.clauses c (mem_clauses_of_mem_cut hc)
  · exact over_units asked_evidence c hc

theorem solveAt_meets (n : Necessity) : (t.solveAt n evidence).Meets (t.Finds n evidence) E := by
  refine askable.admitted.bind fun _ _ => ?_
  refine (askable.solves _ (askable.over_problem asked_evidence n)).imp fun answer settles => ?_
  cases answer with
  | some witness => exact models_problem.1 settles.1
  | none => exact fun ⟨w, model⟩ => settles w (models_problem.2 model) nofun

theorem searchLevel_meets (weighted : t.degrees = t.weights) {fuel low high : Nat}
    {best : Option (Witness × Necessity)} (enough : high - low ≤ fuel)
    (halving : Halving t evidence low high best) :
    (t.searchLevel evidence t.weights.toArray fuel low high best).Meets (t.Prefers evidence) E := by
  induction fuel generalizing low high best with
  | zero => exact .pure (halving.prefers (by omega) askable.ascending weighted)
  | succ fuel ih =>
    rw [searchLevel]
    split
    · next lt =>
      have bound : (low + high - 1) / 2 < high := by omega
      have weight : t.weights[(low + high - 1) / 2]? =
          some (t.weights.toArray.getD ((low + high - 1) / 2) .certain) := by
        have lt := Nat.lt_of_lt_of_le bound halving.high_le
        rw [Array.getD_eq_getD_getElem?, List.getElem?_toArray, List.getElem?_eq_getElem lt,
          Option.getD_some]
      refine (askable.solveAt_meets asked_evidence _).bind fun answer finds => ?_
      cases answer with
      | some witness => exact ih (by omega) (halving.lower bound (by omega) weight finds)
      | none => exact ih (by omega) (halving.raise bound askable.ascending weight finds)
    · exact .pure (halving.prefers (by omega) askable.ascending weighted)

theorem solve_meets : (t.solve evidence).Meets (t.Prefers evidence) E := by
  unfold solve
  dsimp only
  rw [List.isEmpty_toArray]
  split
  · next none =>
    have degrees : t.degrees = [.certain] := if_pos none
    refine (askable.solveAt_meets asked_evidence _).bind fun answer finds => .pure ?_
    cases answer with
    | some witness =>
      refine ⟨⟨?_, ⟨_, finds⟩, fun m hm lt => ?_⟩, finds⟩
      · rw [degrees]
        exact List.mem_singleton_self _
      · rw [degrees, List.mem_singleton] at hm
        exact absurd (hm ▸ lt) (Necessity.not_lt.2 (Necessity.le_refl _))
    | none =>
      intro n hn
      rw [degrees, List.mem_singleton] at hn
      rwa [hn]
  · next some =>
    have weighted : t.degrees = t.weights := if_neg some
    rw [List.size_toArray]
    exact askable.searchLevel_meets asked_evidence weighted (Nat.le_refl _)
      ⟨Nat.zero_le _, Nat.le_refl _, nofun, .inl ⟨rfl, rfl⟩⟩

theorem implies_meets {c : Clause} (asked_consequent : ∀ l ∈ c, asked l) :
    (t.implies evidence c).Meets (fun b => b = true ↔ t.Entails evidence c) E := by
  unfold implies
  split
  · next tautology => exact .pure (iff_of_true rfl (.inl (Clause.isTautology_iff.1 tautology)))
  · next not_tautology =>
    have can_fail : ¬ ∀ w, c.Holds w := fun always => not_tautology (Clause.isTautology_iff.2 always)
    refine Query.Meets.bind askable.admitted fun _ _ => ?_
    refine (askable.solve_meets asked_evidence).bind fun answer prefers => ?_
    cases answer with
    | none =>
      refine .pure (iff_of_false nofun ?_)
      rintro (always | ⟨n, preferred, -⟩)
      · exact can_fail always
      · exact prefers n preferred.mem preferred.consistent
    | some found =>
      obtain ⟨witness, n⟩ := found
      have asked_negated : ∀ l ∈ c.negated, asked l :=
        List.forall_mem_map.2 fun l hl => askable.negate l (asked_consequent l hl)
      have over_all : ∀ d ∈ t.cut n ∪ units evidence.toList ∪ units c.negated, ∀ l ∈ d, asked l := by
        intro d hd
        rcases OrdSet.mem_union.1 hd with hd | hd
        · exact askable.over_problem asked_evidence n d hd
        · exact over_units asked_negated d hd
      refine (askable.solves _ over_all).bind fun answer settles => .pure ?_
      rw [← Bool.not_eq_false, Option.isNone_eq_false_iff, settles.isSome_iff]
      constructor
      · intro unfalsified
        refine .inr ⟨n, prefers.1, fun w model => ?_⟩
        by_contra fails
        exact unfalsified ⟨w, models_negated.2 ⟨model, fails⟩, nofun⟩
      · rintro (always | ⟨m, preferred, holds⟩) ⟨w, falsified, -⟩
        · exact can_fail always
        · obtain rfl := preferred.unique prefers.1
          obtain ⟨model, fails⟩ := models_negated.1 falsified
          exact fails (holds w model)

end Askable

section Queries

variable (regular : t.Regular) (ground : ∀ c ∈ t.clauses, c.isGround = true) (solves : t.Solves E)
  (ground_evidence : ∀ l ∈ evidence, l.isGround = true)

include regular ground solves ground_evidence

theorem solve_meets : (t.solve evidence).Meets (t.Prefers evidence) E :=
  (askable_ground regular ground solves).solve_meets ground_evidence

theorem implies_meets {c : Clause} (ground_consequent : c.isGround = true) :
    (t.implies evidence c).Meets (fun b => b = true ↔ t.Entails evidence c) E :=
  (askable_ground regular ground solves).implies_meets ground_evidence (List.all_eq_true.1 ground_consequent)

end Queries

/-- In any session the preferred level that is found is the lowest that there is, with a model at it, and
what is implied is what cannot fail or holds in all models at that level. -/
theorem queries_exact (t : Theory) (regular : t.Regular) (ground : ∀ c ∈ t.clauses, c.isGround = true)
    (probable : t.settings.Probable) (untimed : t.settings.solveLimit? = none)
    (evidence : Evidence) (ground_evidence : ∀ l ∈ evidence, l.isGround = true)
    (c : Clause) (ground_consequent : c.isGround = true)
    (s u : Session) (truthful : s.Truthful) (truthful' : u.Truthful) :
    ∃ answer s' b u', (t.solve evidence).run s = (.ok answer, s') ∧
      (t.implies evidence c).run u = (.ok b, u') ∧ s'.Truthful ∧ u'.Truthful ∧
      (answer.isSome = true ↔ ∃ n ∈ t.degrees, t.ConsistentAt n evidence) ∧
      (∀ witness n, answer = some (witness, n) →
        n ∈ t.degrees ∧ t.ModelAt n evidence witness.world ∧
        (∀ m ∈ t.degrees, m < n → ¬ t.ConsistentAt m evidence) ∧
        ∀ m ∈ t.degrees, n ≤ m → t.ConsistentAt m evidence) ∧
      (b = true ↔ (∀ w, c.Holds w) ∨
        ∃ witness n, answer = some (witness, n) ∧ ∀ w, t.ModelAt n evidence w → c.Holds w) := by
  have solves : t.Solves fun _ => False := solves_of_untimed probable untimed
  obtain ⟨answer, s', solved, left, prefers⟩ :=
    (solve_meets regular ground solves ground_evidence).result truthful
  obtain ⟨b, u', implied, left', entails⟩ :=
    (implies_meets regular ground solves ground_evidence ground_consequent).result truthful'
  refine ⟨answer, s', b, u', solved, implied, left, left', prefers.isSome_iff, ?_,
    entails.trans (or_congr_right ?_)⟩
  · rintro witness n rfl
    obtain ⟨preferred, model⟩ := prefers
    exact ⟨preferred.mem, model, preferred.lowest, fun m _ le => preferred.consistent.mono le⟩
  · cases answer with
    | none =>
      refine iff_of_false (fun ⟨n, preferred, _⟩ => ?_) nofun
      exact prefers n preferred.mem preferred.consistent
    | some found =>
      constructor
      · rintro ⟨n, preferred, holds⟩
        obtain rfl := preferred.unique prefers.1
        exact ⟨found.1, found.2, rfl, holds⟩
      · rintro ⟨witness, n, same, holds⟩
        obtain rfl := Option.some.inj same
        exact ⟨n, prefers.1, holds⟩

/-- Birds fly, and more certainly penguins do not. All penguins are birds. -/
def penguins : Theory :=
  (ofStrata [.singleton (.ofList [⟨"bird", [], false⟩, ⟨"flies", [], true⟩]),
    .singleton (.ofList [⟨"penguin", [], false⟩, ⟨"flies", [], false⟩])]).withHardRules
      (.singleton (.ofList [⟨"penguin", [], false⟩, ⟨"bird", [], true⟩]))

theorem regular_penguins : penguins.Regular := (regular_ofStrata _).addHardRules _

theorem queries_exact_penguins : ∃ s' u',
    (penguins.solve (.singleton ⟨"penguin", [], true⟩)).run {} =
      (.ok (some (.ofList [⟨"bird", [], true⟩, ⟨"penguin", [], true⟩], .ofLevel 1 2)), s') ∧
    (penguins.implies (.singleton ⟨"penguin", [], true⟩) (.unit ⟨"flies", [], false⟩)).run {} =
      (.ok true, u') ∧
    ¬ penguins.ConsistentAt (.ofLevel 0 2) (.singleton ⟨"penguin", [], true⟩) ∧
    ∀ w, penguins.ModelAt (.ofLevel 1 2) (.singleton ⟨"penguin", [], true⟩) w →
      (Clause.unit ⟨"flies", [], false⟩).Holds w := by
  obtain ⟨answer, s', b, u', solved, implied, -, -, -, exact, entails⟩ := queries_exact penguins
    regular_penguins (by decide +kernel) Settings.probable_default rfl
    (.singleton ⟨"penguin", [], true⟩) (by decide +kernel) (.unit ⟨"flies", [], false⟩) (by decide +kernel)
    {} {} (Session.truthful_new _) (Session.truthful_new _)
  have found : ((penguins.solve (.singleton ⟨"penguin", [], true⟩)).run {}).1 =
      .ok (some (.ofList [⟨"bird", [], true⟩, ⟨"penguin", [], true⟩], .ofLevel 1 2)) := by decide +kernel
  have holds : ((penguins.implies (.singleton ⟨"penguin", [], true⟩)
      (.unit ⟨"flies", [], false⟩)).run {}).1 = .ok true := by decide +kernel
  rw [solved] at found
  rw [implied] at holds
  obtain rfl := Except.ok.inj found
  obtain rfl := Except.ok.inj holds
  obtain ⟨-, -, drowned, -⟩ := exact _ _ rfl
  refine ⟨s', u', solved, implied, drowned _ (by decide +kernel) (by decide +kernel), ?_⟩
  rcases entails.1 rfl with always | ⟨_, _, same, models⟩
  · exact fun w _ => always w
  · cases same
    exact models

end Defeasible.Theory
