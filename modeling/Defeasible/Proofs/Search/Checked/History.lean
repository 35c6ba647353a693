import Defeasible.Proofs.Search.Checked.Solve
import Defeasible.Proofs.Search.History

/-! Whole histories end, and stay within the arrays of their states. -/

namespace Defeasible.Search.Checked

open State

variable {s : State} {settings : Settings} {clauses : List (List Lit)} {ops : List Operation}

theorem newAtom_eq (s : State) : newAtom s = pure s.newAtom := by
  simp only [newAtom, enqueue_eq, pure_bind]
  rfl

theorem simplify_eq {kept ls : List Lit} (known : ∀ l ∈ ls, s.HasAtom l.atom) {out? : Option (List Lit)}
    (run : s.simplify kept ls = .ok out?) : simplify s kept ls = pure out? := by
  induction ls generalizing kept with
  | nil =>
    cases run
    rfl
  | cons l ls ih =>
    have hasAtom := known l (List.mem_cons_self ..)
    have rest : ∀ m ∈ ls, s.HasAtom m.atom := fun m hm => known m (List.mem_cons_of_mem l hm)
    have knows : s.knows l = true := by simpa [State.knows] using hasAtom.2
    rw [State.simplify, knows] at run
    rw [simplify, litValue?_eq hasAtom.2, pure_bind]
    simp only [Bool.not_true, Bool.false_eq_true, if_false] at run
    cases hv : s.litValue? l with
    | some b =>
      rw [hv] at run
      cases b with
      | true =>
        cases run
        rfl
      | false => exact ih rest run
    | none =>
      rw [hv] at run
      dsimp only at run ⊢
      split at run
      · next opposite =>
        cases run
        rw [if_pos opposite]
      · next opposite =>
        rw [if_neg opposite]
        split at run
        · next mem =>
          rw [if_pos mem]
          exact ih rest run
        · next new =>
          rw [if_neg new]
          exact ih rest run

theorem addClause_eq {clause : List Lit} (inv : s.Invariant settings clauses)
    (known : ∀ l ∈ clause, s.HasAtom l.atom) :
    addClause s clause = pure ((s.addClause clause).toOption.getD s) := by
  have back := inv.backjump 0
  have starts := starts_backjump_zero s
  have known := known_backjump known 0
  rw [addClause, State.addClause, backjump_eq inv.coherent, pure_bind]
  generalize s.backjump 0 = t at back starts known ⊢
  have h := back.coherent
  have level : t.trail.level = 0 := by rw [Trail.level, starts]; rfl
  by_cases refuted : t.refuted = true
  · simp only [if_pos refuted]
    rfl
  · obtain ⟨out?, run, simplifies⟩ :=
      simplify_spec known (fun l hl => absurd hl List.not_mem_nil) List.nodup_nil
    simp only [if_neg refuted, run, simplify_eq known run, pure_bind]
    cases simplifies with
    | holds => rfl
    | opposite => rfl
    | left out simplified =>
      have hasAtom : ∀ l ∈ out, t.HasAtom l.atom := fun l hl =>
        known l ((simplified.sub l hl).resolve_left List.not_mem_nil)
      cases out with
      | nil => rfl
      | cons first rest =>
        have first_hasAtom := hasAtom first (List.mem_cons_self ..)
        cases rest with
        | nil =>
          have free := simplified.free first (List.mem_cons_self ..)
          have assigned : (t.assign first none).Coherent :=
            h.assign first_hasAtom free (fun _ hk => by cases hk) (by omega)
          simp only [assign_eq h first_hasAtom, propagate_eq assigned back.watched, pure_bind]
          rcases (t.assign first none).propagate with ⟨conflict, u⟩
          cases conflict with
          | none => rfl
          | some key => rfl
        | cons second rest =>
          simp only [store_eq (h.watchIndex_lt first_hasAtom) (h.watchIndex_lt (hasAtom second (by simp))),
            pure_bind]
          rfl

noncomputable def perform (s : State) : Operation → Run State
  | .newAtom => return (← newAtom s).2
  | .addClause clause => addClause s clause
  | .solve assumptions deadline => return (← solve s assumptions deadline).2
  | .backjump target => backjump s target
  | .makeDecision assumptions => return (← makeDecision s assumptions).2
  | .propagate => return (← propagate s).2

noncomputable def run (s : State) (ops : List Operation) : Run State := ops.foldlM perform s

theorem perform_eq (inv : s.Invariant settings clauses) (settled : s.Settled) (op : Operation)
    (legal : ∀ l ∈ op.literals, s.HasAtom l.atom) : perform s op = pure (s.perform op) := by
  cases op with
  | newAtom => rw [perform, newAtom_eq, pure_bind, State.perform]
  | addClause clause => exact addClause_eq inv legal
  | solve assumptions deadline =>
    have known : ∀ a ∈ assumptions, s.HasAtom a.atom := legal
    rw [perform, solve_eq inv settled known, pure_bind, State.perform]
  | backjump target => exact backjump_eq inv.coherent target
  | makeDecision assumptions =>
    have known : ∀ a ∈ assumptions, s.HasAtom a.atom := legal
    rw [perform, makeDecision_eq inv.coherent inv.queued known, pure_bind, State.perform]
  | propagate => rw [perform, propagate_eq inv.coherent inv.watched, pure_bind, State.perform]

theorem run_eq (inv : s.Invariant settings clauses) (settled : s.Settled) (legal : s.Legal ops) :
    run s ops = pure (s.run ops) := by
  induction ops generalizing s clauses with
  | nil => rfl
  | cons op ops ih =>
    obtain ⟨inv', settled'⟩ := perform_spec inv settled op legal.1
    rw [run, List.foldlM_cons, perform_eq inv settled op legal.1, pure_bind]
    exact ih inv' settled' legal.2

theorem history_eq (settings : Settings) (legal : (State.new settings).Legal ops) {assumptions : List Lit}
    (known : ∀ a ∈ assumptions, ((State.new settings).run ops).HasAtom a.atom) (deadline : Deadline) :
    (run (State.new settings) ops >>= fun s => solve s assumptions deadline) =
      pure (((State.new settings).run ops).solve assumptions deadline) := by
  obtain ⟨inv, settled⟩ := history_spec settings legal
  rw [run_eq (new_invariant settings) (new_settled settings) legal, pure_bind, solve_eq inv settled known]

/-- After any history, a solve without deadline ends with an answer, though nothing bounds its loops. -/
theorem solve_terminates (settings : Settings) (probable : settings.Probable) (ops : List Operation)
    (legal : (State.new settings).Legal ops) (assumptions : List Lit)
    (known : ∀ a ∈ assumptions, ((State.new settings).run ops).HasAtom a.atom) :
    ∃ report s,
      (run (State.new settings) ops >>= fun s => solve s assumptions .never) = pure (.ok report, s) ∧
      ((State.new settings).run ops).solve assumptions .never = (.ok report, s) ∧ report ≠ .timeUp := by
  obtain ⟨inv, settled⟩ := history_spec settings legal
  have answered := (solve_spec inv settled known .never).answered
  rw [history_eq settings legal known]
  revert answered
  rcases ((State.new settings).run ops).solve assumptions .never with ⟨r, s⟩
  intro answered
  cases answered with
  | satisfiable => exact ⟨.satisfiable, s, rfl, rfl, nofun⟩
  | unsatisfiable => exact ⟨.unsatisfiable, s, rfl, rfl, nofun⟩
  | assumptionConflict => exact ⟨.assumptionConflict, s, rfl, rfl, nofun⟩
  | timeUp _ n up => cases up
  | failed e _ improbable => exact absurd probable improbable

theorem solve_terminates_sample : ∃ report s,
    (run (State.new {}) sample >>= fun s => solve s [⟨1, false⟩] .never) = pure (.ok report, s) ∧
      ((State.new {}).run sample).solve [⟨1, false⟩] .never = (.ok report, s) ∧ report ≠ .timeUp :=
  solve_terminates {} Settings.probable_default sample (by decide +kernel) [⟨1, false⟩] (by decide +kernel)

/-- In any history and in a solve after it, no place outside of an array is looked at, and the analysis of
a conflict has no error. It takes a probability that is none for the solve to fail at all. -/
theorem solve_never_fails (settings : Settings) (ops : List Operation)
    (legal : (State.new settings).Legal ops) (assumptions : List Lit)
    (known : ∀ a ∈ assumptions, ((State.new settings).run ops).HasAtom a.atom) (deadline : Deadline) :
    ∃ r s, (run (State.new settings) ops >>= fun s => solve s assumptions deadline) = pure (r, s) ∧
      ((State.new settings).run ops).solve assumptions deadline = (r, s) ∧
      (∀ e, r ≠ .error (.analysis e)) ∧ (settings.Probable → ∃ report, r = .ok report) := by
  obtain ⟨inv, settled⟩ := history_spec settings legal
  have answered := (solve_spec inv settled known deadline).answered
  rw [history_eq settings legal known]
  revert answered
  rcases ((State.new settings).run ops).solve assumptions deadline with ⟨r, s⟩
  intro answered
  refine ⟨r, s, rfl, rfl, ?_, ?_⟩
  · rintro e rfl
    cases answered
  · intro probable
    cases answered with
    | failed e _ improbable => exact absurd probable improbable
    | _ => exact ⟨_, rfl⟩

theorem solve_never_fails_sample : ∃ r s,
    (run (State.new {}) sample >>= fun s => solve s [⟨1, false⟩] fun n => n == 1) = pure (r, s) ∧
      ((State.new {}).run sample).solve [⟨1, false⟩] (fun n => n == 1) = (r, s) ∧
      (∀ e, r ≠ .error (.analysis e)) ∧ (({} : Settings).Probable → ∃ report, r = .ok report) :=
  solve_never_fails {} sample (by decide +kernel) [⟨1, false⟩] (by decide +kernel) fun n => n == 1

end Defeasible.Search.Checked
