import Defeasible.Proofs.Theory.Query

/-! The most plausible models. A clause weighs more than all clauses of the levels below it together, so of two
worlds the one that falsifies the more certain clause is the more expensive, whatever else they falsify. -/

namespace Defeasible

namespace World

variable {w : World}

theorem penalty_append (soft soft' : List (Clause × Nat)) :
    w.penalty (soft ++ soft') = w.penalty soft + w.penalty soft' := by
  induction soft with
  | nil => rw [List.nil_append, penalty, Nat.zero_add]
  | cons c soft ih => rw [List.cons_append, penalty, penalty, ih, Nat.add_assoc]

theorem penalty_eq_zero {soft : List (Clause × Nat)} (holds : ∀ c ∈ soft, c.1.Holds w) : w.penalty soft = 0 := by
  induction soft with
  | nil => rfl
  | cons c soft ih =>
    rw [penalty, if_pos (holds c List.mem_cons_self), ih fun d hd => holds d (List.mem_cons_of_mem c hd)]

theorem le_penalty {soft : List (Clause × Nat)} {c : Clause × Nat} (mem : c ∈ soft) (fails : ¬ c.1.Holds w) :
    c.2 ≤ w.penalty soft := by
  obtain ⟨before, after, rfl⟩ := List.append_of_mem mem
  rw [penalty_append, penalty, if_neg fails]
  omega

theorem penalty_map_le (cs : List Clause) (weight : Nat) :
    w.penalty (cs.map (·, weight)) ≤ weight * cs.length := by
  induction cs with
  | nil => exact Nat.zero_le _
  | cons c cs ih =>
    rw [List.map_cons, penalty, List.length_cons, Nat.mul_succ, Nat.add_comm]
    refine Nat.add_le_add ih ?_
    split
    · exact Nat.zero_le _
    · exact Nat.le_refl _

end World

namespace Theory

variable {t : Theory} {evidence : Evidence} {levels : List Level} {n : Necessity} {v w : World} {total : Nat}

/-! ### Weights -/

theorem weighClauses_cons (total : Nat) (l : Level) (levels : List Level) :
    weighClauses total (l :: levels) = l.clauses.toList.map (·, total + 1) ++
      weighClauses (total + (total + 1) * l.clauses.size) levels := rfl

theorem mem_weighClauses {c : Clause × Nat} (mem : c ∈ weighClauses total levels) :
    (∃ l ∈ levels, c.1 ∈ l.clauses) ∧ total < c.2 := by
  induction levels generalizing total with
  | nil => cases mem
  | cons l levels ih =>
    rw [weighClauses_cons] at mem
    rcases List.mem_append.1 mem with mem | mem
    · obtain ⟨d, hd, rfl⟩ := List.mem_map.1 mem
      exact ⟨⟨l, List.mem_cons_self, hd⟩, Nat.lt_succ_self total⟩
    · obtain ⟨⟨l', hl', hc⟩, lt⟩ := ih mem
      exact ⟨⟨l', List.mem_cons_of_mem l hl', hc⟩, by omega⟩

theorem exists_mem_weighClauses {l : Level} (hl : l ∈ levels) {c : Clause} (hc : c ∈ l.clauses) (total : Nat) :
    ∃ weight, (c, weight) ∈ weighClauses total levels := by
  induction levels generalizing total with
  | nil => cases hl
  | cons l' levels ih =>
    rw [weighClauses_cons]
    rcases List.mem_cons.1 hl with rfl | hl
    · exact ⟨total + 1, List.mem_append_left _ (List.mem_map_of_mem hc)⟩
    · obtain ⟨weight, mem⟩ := ih hl (total + (total + 1) * l'.clauses.size)
      exact ⟨weight, List.mem_append_right _ mem⟩

def falsified (t : Theory) (w : World) : Set Necessity :=
  {n | ∃ l ∈ t.levels, l.necessity = n ∧ ∃ c ∈ l.clauses, ¬ c.Holds w}

/-- A world that falsifies a clause pays more than one that falsifies only less certain clauses, even if the other
pays for everything below. -/
theorem penalty_lt (total : Nat) (ascending : Ascending levels)
    (fails : ∃ l ∈ levels, n ≤ l.necessity ∧ ∃ c ∈ l.clauses, ¬ c.Holds w)
    (holds : ∀ l ∈ levels, n ≤ l.necessity → ∀ c ∈ l.clauses, c.Holds v) :
    total + v.penalty (weighClauses total levels) < w.penalty (weighClauses total levels) := by
  induction levels generalizing total with
  | nil =>
    obtain ⟨l, hl, -⟩ := fails
    cases hl
  | cons l levels ih =>
    obtain ⟨first, ascending⟩ := List.pairwise_cons.1 ascending
    by_cases le : n ≤ l.necessity
    · -- All levels from here on are at least as certain, so only one of the two pays.
      have free : v.penalty (weighClauses total (l :: levels)) = 0 := by
        refine World.penalty_eq_zero fun c mem => ?_
        obtain ⟨⟨l', hl', hc⟩, -⟩ := mem_weighClauses mem
        refine holds l' hl' ?_ c.1 hc
        rcases List.mem_cons.1 hl' with rfl | hl'
        · exact le
        · exact Necessity.le_trans le (Necessity.le_of_lt (first l' hl'))
      obtain ⟨l', hl', -, c, hc, fails⟩ := fails
      obtain ⟨weight, mem⟩ := exists_mem_weighClauses hl' hc total
      rw [free, Nat.add_zero]
      exact Nat.lt_of_lt_of_le (mem_weighClauses mem).2 (World.le_penalty mem fails)
    · have fails : ∃ l ∈ levels, n ≤ l.necessity ∧ ∃ c ∈ l.clauses, ¬ c.Holds w := by
        obtain ⟨l', hl', le', fails⟩ := fails
        rcases List.mem_cons.1 hl' with rfl | hl'
        · exact absurd le' le
        · exact ⟨l', hl', le', fails⟩
      have above := ih (total + (total + 1) * l.clauses.size) ascending fails fun l' hl' =>
        holds l' (List.mem_cons_of_mem l hl')
      have below := World.penalty_map_le (w := v) l.clauses.toList (total + 1)
      rw [weighClauses_cons, World.penalty_append, World.penalty_append]
      rw [OrdSet.size] at above ⊢
      omega

/-! ### Plausible models -/

structure Possible (t : Theory) (evidence : Evidence) (w : World) : Prop where
  hardRules : ∀ c ∈ t.hardRules, c.Holds w
  evidence : ∀ l ∈ evidence, l.Holds w

theorem ModelAt.possible (model : t.ModelAt n evidence w) : t.Possible evidence w :=
  ⟨fun c hc => model.cut c (mem_cut.2 (.inr hc)), model.evidence⟩

/-- Whether no possible world has its most certain falsified clause below that of this one. -/
structure MostPlausible (t : Theory) (evidence : Evidence) (w : World) : Prop where
  possible : t.Possible evidence w
  least : ∀ v, t.Possible evidence v → ∀ n ∈ t.falsified w, ∃ m ∈ t.falsified v, n ≤ m

theorem mostPlausible_of_penalty (ascending : Ascending t.levels) (possible : t.Possible evidence w)
    (least : ∀ v, t.Possible evidence v → w.penalty (weighClauses 0 t.levels) ≤ v.penalty (weighClauses 0 t.levels)) :
    t.MostPlausible evidence w := by
  refine ⟨possible, fun v possible' n falsified => ?_⟩
  by_contra better
  have holds (l : Level) (hl : l ∈ t.levels) (le : n ≤ l.necessity) (c : Clause) (hc : c ∈ l.clauses) :
      c.Holds v := by
    by_contra fails
    exact better ⟨l.necessity, ⟨l, hl, rfl, c, hc, fails⟩, le⟩
  obtain ⟨l, hl, rfl, fails⟩ := falsified
  have lt := penalty_lt 0 ascending ⟨l, hl, Necessity.le_refl _, fails⟩ holds
  have le := least v possible'
  omega

theorem MostPlausible.modelAt (best : t.MostPlausible evidence w) (consistent : t.ConsistentAt n evidence) :
    t.ModelAt n evidence w := by
  obtain ⟨v, model⟩ := consistent
  refine ⟨fun c hc => ?_, best.possible.evidence⟩
  rcases mem_cut.1 hc with ⟨l, hl, le, hc⟩ | hc
  · by_contra fails
    obtain ⟨m, ⟨l', hl', rfl, c', hc', fails'⟩, le'⟩ :=
      best.least v model.possible l.necessity ⟨l, hl, rfl, c, hc, fails⟩
    exact fails' (model.cut c' (mem_cut.2 (.inl ⟨l', hl', Necessity.le_trans le le', hc'⟩)))
  · exact best.possible.hardRules c hc

theorem possible_iff :
    (∀ c ∈ t.hardRules.toList ++ evidence.toList.map Clause.unit, c.Holds w) ↔ t.Possible evidence w := by
  simp only [List.forall_mem_append, List.forall_mem_map, Clause.holds_unit]
  exact ⟨fun h => ⟨h.1, h.2⟩, fun possible => ⟨possible.hardRules, possible.evidence⟩⟩

/-- There is a most plausible model wherever the evidence is consistent with the hard rules, and it holds at the level
that is preferred, if there is one. -/
theorem mostPlausible_exact (t : Theory) (regular : t.Regular) (ground : ∀ c ∈ t.clauses, c.isGround = true)
    (probable : t.settings.Probable) (untimed : t.settings.optimisationLimit? = none)
    (evidence : Evidence) (ground_evidence : ∀ l ∈ evidence, l.isGround = true) (s : Session) :
    ∃ answer s', (t.mostPlausible evidence).run s = (.ok answer, s') ∧
      (answer.isSome = true ↔ ∃ w, t.Possible evidence w) ∧
      ∀ witness ∈ answer, t.MostPlausible evidence witness.world ∧
        ∀ u u' found n, u.Truthful → (t.solve evidence).run u = (.ok (some (found, n)), u') →
          ∀ c ∈ t.cut n, c.Holds witness.world := by
  have ground_hard : ∀ c ∈ t.hardRules.toList ++ evidence.toList.map Clause.unit, c.isGround = true := by
    rw [List.forall_mem_append, List.forall_mem_map]
    exact ⟨fun c hc => ground c (mem_clauses.2 (.inr hc)), fun l hl => Clause.ground_unit (ground_evidence l hl)⟩
  have weighed (c : Clause × Nat) (mem : c ∈ weighClauses 0 t.levels) : c.1.isGround = true ∧ c.2 ≠ 0 := by
    obtain ⟨placed, pos⟩ := mem_weighClauses mem
    exact ⟨ground c.1 (mem_clauses.2 (.inl placed)), Nat.pos_iff_ne_zero.1 pos⟩
  obtain ⟨solver, made, ready, -⟩ := Solver.new_spec (t.hardRules.toList ++ evidence.toList.map Clause.unit)
    (weighClauses 0 t.levels) t.settings ground_hard (fun c hc => (weighed c hc).1) fun c hc => (weighed c hc).2
  obtain ⟨answer, solver', optimized, -, -, settles, least⟩ := ready.optimize probable untimed (s.watches s.solves)
  have isGround : t.isGround = true := by rw [regular.recorded, List.all_eq_true.2 ground]
  refine ⟨answer, { s with solves := s.solves + 1 }, ?_, ?_, fun witness found => ?_⟩
  · have asked :
        (Query.ofExcept id (solver.optimize (s.watches s.solves)).1 : Query (Option Witness)) = pure answer := by
      rw [optimized]
      rfl
    unfold mostPlausible requireGround
    rw [if_pos isGround, pure_bind]
    dsimp only
    rw [made, Query.ofExcept_ok, pure_bind, Query.run_bind]
    exact congrArg (Query.run · { s with solves := s.solves + 1 }) asked
  · simp only [settles.isSome_iff, possible_iff, List.not_mem_nil, false_implies, implies_true, and_true]
  · obtain rfl := found
    have best : t.MostPlausible evidence witness.world :=
      mostPlausible_of_penalty regular.ascending (possible_iff.1 settles.1) fun v possible =>
        least witness rfl v (possible_iff.2 possible)
    refine ⟨best, fun u u' found n truthful solved => ?_⟩
    have prefers := (solve_meets regular ground (solves_within probable) ground_evidence).of_run truthful solved
    exact (best.modelAt prefers.1.consistent).cut

theorem mostPlausible_exact_penguins : ∃ witness s',
    (penguins.mostPlausible (.singleton ⟨"penguin", [], true⟩)).run {} = (.ok (some witness), s') ∧
      penguins.MostPlausible (.singleton ⟨"penguin", [], true⟩) witness.world ∧
      ∀ c ∈ penguins.cut (.ofLevel 1 2), c.Holds witness.world := by
  obtain ⟨answer, s', run, some_iff, exact⟩ := mostPlausible_exact penguins regular_penguins (by decide +kernel)
    Settings.probable_default rfl (.singleton ⟨"penguin", [], true⟩) (by decide +kernel) {}
  obtain ⟨witness, rfl⟩ := Option.isSome_iff_exists.1
    (some_iff.2 ⟨fun p => p.predicate != "flies", by decide +kernel, by decide +kernel⟩)
  obtain ⟨best, agrees⟩ := exact witness rfl
  refine ⟨witness, s', run, best, ?_⟩
  have solved : ((penguins.solve (.singleton ⟨"penguin", [], true⟩)).run {}).1 =
      .ok (some (.ofList [⟨"bird", [], true⟩, ⟨"penguin", [], true⟩], .ofLevel 1 2)) := by decide +kernel
  exact agrees {} _ _ _ (Session.truthful_new _) (Prod.ext solved rfl)

end Theory

end Defeasible
