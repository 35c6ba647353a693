import Defeasible.Proofs.Search.History
import Defeasible.Proofs.Search.WellFormed
import Mathlib.Logic.Relation

/-! The states that calls of a search reach, in any order and whatever each call returns, the analysis of
clauses that are in no conflict among them. Such an analysis can fail half way and leave its marks, so that
later solves learn clauses that do not follow; what is well formed stays so. -/

namespace Defeasible.Search.State

variable {s s' t : State} {p : Prop} {settings : Settings} {assumptions clause : List Lit}
  {deadline : Deadline}

/-- A solve that returns, after any number of passes. The bound that `solve` puts on their number is only
known to be met where no marks are left over. -/
inductive Solves (assumptions : List Lit) (deadline : Deadline) (s : State) :
    Except Error Report → State → Prop
  | refuted (refuted : s.refuted = true) : Solves assumptions deadline s (.ok .unsatisfiable) (s.backjump 0)
  | searched (passes : Nat) (r : Except Error Report) (t : State) (unrefuted : s.refuted = false)
    (run : search assumptions deadline passes (s.backjump 0) = (r, t))
    (returns : ∀ e, r ≠ .error (.fault e)) : Solves assumptions deadline s r t

theorem solves_of_solve {r : Except Error Report} (run : s.solve assumptions deadline = (r, t))
    (returns : ∀ e, r ≠ .error (.fault e)) : s.Solves assumptions deadline r t := by
  unfold solve at run
  dsimp only at run
  rw [refuted_backjump] at run
  split at run
  · next refuted =>
    cases run
    exact .refuted refuted
  · next unrefuted => exact .searched _ r t (by simpa using unrefuted) run returns

inductive Calls (s : State) : State → Prop
  | newAtom : Calls s s.newAtom.2
  | addClause (clause : List Lit) (t : State) (known : ∀ l ∈ clause, s.HasAtom l.atom)
    (run : s.addClause clause = .ok t) : Calls s t
  | solve (assumptions : List Lit) (deadline : Deadline) (r : Except Error Report) (t : State)
    (known : ∀ l ∈ assumptions, s.HasAtom l.atom) (run : s.Solves assumptions deadline r t) : Calls s t
  | backjump (target : Nat) : Calls s (s.backjump target)
  | makeDecision (assumptions : List Lit) (d : Decision) (t : State)
    (known : ∀ l ∈ assumptions, s.HasAtom l.atom) (run : s.makeDecision assumptions = (.ok d, t)) :
    Calls s t
  | propagate : Calls s s.propagate.2
  | analyse (key : Nat) (stored : key < s.clauses.size) : Calls s (s.analyse key).2

def Reached (settings : Settings) : State → Prop := Relation.ReflTransGen Calls (State.new settings)

namespace Structured

theorem propagates {conflict : Option Nat} (h : s.Structured p) (drawn : Propagates s conflict s') :
    s'.Structured p :=
  h.grow drawn.coherent drawn.watched drawn.grows

theorem propagate (h : s.Structured p) : s.propagate.2.Structured p :=
  h.propagates (propagate_spec h.coherent h.watched rfl)

theorem addClause (h : s.Structured p) (known : ∀ l ∈ clause, s.HasAtom l.atom)
    (run : s.addClause clause = .ok t) : t.Structured p := by
  have back := h.backjump 0
  have starts := starts_backjump_zero s
  have known := known_backjump known 0
  unfold State.addClause at run
  generalize s.backjump 0 = u at back starts known run
  dsimp only at run
  split at run
  · cases run
    exact back
  · obtain ⟨out?, simplified, simplifies⟩ :=
      simplify_spec known (fun l hl => absurd hl List.not_mem_nil) List.nodup_nil
    simp only [simplified] at run
    cases simplifies with
    | holds | opposite =>
      cases run
      exact back
    | left out left =>
      have hasAtom : ∀ l ∈ out, u.HasAtom l.atom := fun l hl =>
        known l ((left.sub l hl).resolve_left List.not_mem_nil)
      cases out with
      | nil =>
        cases run
        exact back.refute
      | cons first rest =>
        cases rest with
        | nil =>
          have level : u.trail.level = 0 := by rw [Trail.level, starts]; rfl
          have assigned : (u.assign first none).Structured p :=
            back.assign (hasAtom first (by simp)) (left.free first (by simp)) (fun _ hkey => by cases hkey)
              fun _ hpos => by omega
          have drawn := assigned.propagate
          dsimp only at run
          generalize (u.assign first none).propagate = outcome at run drawn
          obtain ⟨conflict, v⟩ := outcome
          cases conflict with
          | none =>
            cases run
            exact drawn
          | some key =>
            cases run
            exact drawn.refute
        | cons second rest =>
          cases run
          exact back.store hasAtom left.nodup

theorem restartIfDue (h : s.Structured p) : s.restartIfDue.Structured p := by
  unfold State.restartIfDue
  split
  · unfold restart
    rcases nextThreshold s.settings s.luby with ⟨restartThreshold, luby⟩
    exact h.counted.backjump 0
  · exact h

theorem resolveConflict {key : Nat} {c : Array Lit} (h : s.Structured p) (above : 0 < s.trail.level)
    (hc : s.clauses[key]? = some c) (falsified : ∀ l ∈ c, l.negate ∈ s.trail.literals) :
    (s.resolveConflict key).2.Structured p := by
  have remarked := remarked_analyse h.queued.linked key
  rcases run : s.analyse key with ⟨e | learnt, t⟩
  · rw [run] at remarked
    simp only [State.resolveConflict, run]
    exact h.remarked remarked
  · have shape := analyse_shape h.coherent h.queued.linked above hc falsified run
    rw [run] at remarked
    simp only [State.resolveConflict, run]
    have decayed : (t.learn learnt).decayActivity.Structured p :=
      ((h.remarked remarked).learn (remarked.shape shape)).counted
    exact decayed.restartIfDue

end Structured

def Keeps (s : State) : (Except Error Report × State) ⊕ State → Prop
  | .inl (r, t) => (∀ e, r ≠ .error (.fault e)) → t.Structured True
  | .inr t => t.Structured True ∧ t.values.size = s.values.size

theorem Structured.pass_of_conflict {key : Nat} (h : s.Structured True)
    (drawn : s.propagate = (some key, t)) : s.Keeps (pass assumptions deadline s) := by
  have propagates := propagate_spec h.coherent h.watched drawn
  have counted : t.countConflict.Structured True := (h.propagates propagates).counted
  have size : t.countConflict.values.size = s.values.size := propagates.grows.size_values
  obtain ⟨c, hc, falsified, -⟩ := propagates.false_clause key rfl
  simp only [pass, drawn]
  split
  · exact fun _ => counted.refute
  · next decided =>
    have above : 0 < t.countConflict.trail.level := (isDecided_iff _).1 (by simpa using decided)
    have resolved := counted.resolveConflict above hc falsified
    have size' := size_values_resolveConflict counted.queued.linked key
    generalize t.countConflict.resolveConflict key = outcome at resolved size' ⊢
    obtain ⟨e | _, u⟩ := outcome
    · exact fun _ => resolved
    · exact ⟨resolved, size'.trans size⟩

theorem Structured.pass_of_complete (h : s.Structured True)
    (known : ∀ a ∈ assumptions, s.HasAtom a.atom) (drawn : s.propagate = (none, t)) :
    s.Keeps (pass assumptions deadline s) := by
  have propagates := propagate_spec h.coherent h.watched drawn
  set u : State := { t with checks := t.checks + 1 } with hu
  have counted : u.Structured True := (h.propagates propagates).counted
  have size : u.values.size = s.values.size := propagates.grows.size_values
  have known : ∀ a ∈ assumptions, u.HasAtom a.atom :=
    fun a ha => propagates.grows.retains.hasAtom _ (known a ha)
  have decides := makeDecision_spec counted.queued known
  simp only [pass, drawn, ← hu]
  split
  · exact fun _ => counted
  · generalize u.makeDecision assumptions = outcome at decides ⊢
    obtain ⟨d, v⟩ := outcome
    cases d with
    | error e => exact fun returns => absurd rfl (returns e)
    | ok decision =>
      have kept : v.Structured True := counted.decides decides known fun _ => ⟨decision, rfl⟩
      cases decision with
      | decided | satisfied => exact ⟨kept, decides.size_values.trans size⟩
      | assumptionConflict | exhausted => exact fun _ => kept

theorem Structured.pass (h : s.Structured True) (known : ∀ a ∈ assumptions, s.HasAtom a.atom)
    (deadline : Deadline) : s.Keeps (State.pass assumptions deadline s) := by
  rcases drawn : s.propagate with ⟨_ | key, t⟩
  · exact h.pass_of_complete known drawn
  · exact h.pass_of_conflict drawn

theorem Structured.search {passes : Nat} {r : Except Error Report} (h : s.Structured True)
    (known : ∀ a ∈ assumptions, s.HasAtom a.atom)
    (run : State.search assumptions deadline passes s = (r, t))
    (returns : ∀ e, r ≠ .error (.fault e)) : t.Structured True := by
  induction passes generalizing s with
  | zero =>
    cases run
    exact absurd rfl (returns .unfinished)
  | succ passes ih =>
    have keeps := h.pass known deadline
    rw [State.search] at run
    generalize State.pass assumptions deadline s = outcome at keeps run
    cases outcome with
    | inl answer =>
      cases run
      exact keeps returns
    | inr u => exact ih keeps.1 (fun a ha => ⟨(known a ha).1, by rw [keeps.2]; exact (known a ha).2⟩) run

theorem Structured.solves {r : Except Error Report} (h : s.Structured True)
    (known : ∀ a ∈ assumptions, s.HasAtom a.atom) (run : s.Solves assumptions deadline r t) :
    t.Structured True := by
  have back := h.backjump 0
  cases run with
  | refuted => exact back
  | searched _ _ _ _ run returns =>
    exact back.search (known_backjump known 0) run returns

theorem Structured.calls (h : s.Structured True) (call : Calls s t) : t.Structured True := by
  cases call with
  | newAtom => exact h.newAtom
  | addClause clause _ known run => exact h.addClause known run
  | solve _ _ _ _ known run => exact h.solves known run
  | backjump target => exact h.backjump target
  | makeDecision assumptions d _ known run =>
    have decides := makeDecision_spec h.queued known
    rw [run] at decides
    exact h.decides decides known fun _ => ⟨d, rfl⟩
  | propagate => exact h.propagate
  | analyse key stored => exact h.remarked (remarked_analyse h.queued.linked key)

theorem structured_of_reached (reached : Reached settings s) : s.Structured True := by
  induction reached with
  | refl => exact new_structured settings
  | tail _ call ih => exact ih.calls call

/-- Every state that calls reach is well formed. -/
theorem wellFormed_of_reached (settings : Settings) (s : State) (reached : Reached settings s) :
    s.WellFormed :=
  (structured_of_reached reached).wellFormed

theorem calls_perform {clauses : List (List Lit)} (probable : settings.Probable)
    (inv : s.Invariant settings clauses) (settled : s.Settled) (op : Operation)
    (legal : ∀ l ∈ op.literals, s.HasAtom l.atom) : Calls s (s.perform op) := by
  cases op with
  | newAtom => exact .newAtom
  | addClause clause =>
    have known : ∀ l ∈ clause, s.HasAtom l.atom := legal
    obtain ⟨t, run, -⟩ := addClause_spec inv settled known
    rw [perform, run]
    exact .addClause clause t known run
  | solve assumptions deadline =>
    have known : ∀ l ∈ assumptions, s.HasAtom l.atom := legal
    have answered := (solve_spec inv settled known deadline).answered
    rcases run : s.solve assumptions deadline with ⟨r, t⟩
    rw [run] at answered
    rw [perform, run]
    refine .solve assumptions deadline r t known (solves_of_solve run fun e failed => ?_)
    subst failed
    cases answered with
    | failed _ _ improbable => exact improbable probable
  | backjump target => exact .backjump target
  | makeDecision assumptions =>
    have decides := makeDecision_spec inv.queued legal
    obtain ⟨d, ok⟩ := decides.ok_of_probable (by rwa [inv.settings_eq])
    exact .makeDecision assumptions d _ legal (Prod.ext ok rfl)
  | propagate => exact .propagate

theorem reached_run (probable : settings.Probable) {ops : List Operation}
    (legal : (State.new settings).Legal ops) : Reached settings ((State.new settings).run ops) := by
  suffices ∀ (s : State) (clauses : List (List Lit)), s.Invariant settings clauses → s.Settled →
      Reached settings s → s.Legal ops → Reached settings (s.run ops) from
    this _ [] (new_invariant settings) (new_settled settings) .refl legal
  clear legal
  induction ops with
  | nil => exact fun _ _ _ _ reached _ => reached
  | cons op ops ih =>
    intro s clauses inv settled reached legal
    obtain ⟨inv', settled'⟩ := perform_spec inv settled op legal.1
    exact ih _ _ inv' settled' (reached.tail (calls_perform probable inv settled op legal.1)) legal.2

def redecided : List Operation :=
  [.newAtom, .newAtom, .newAtom, .newAtom, .addClause [⟨1, true⟩, ⟨2, true⟩],
    .addClause [⟨1, false⟩, ⟨3, true⟩], .addClause [⟨1, false⟩, ⟨3, false⟩],
    .makeDecision [⟨2, true⟩], .backjump 0, .makeDecision [⟨1, true⟩]]

def marked : State := (((State.new {}).run redecided).analyse 0).2

theorem wellFormed_of_marked :
    (((State.new {}).run redecided).analyse 0).1 = .error (.analysis .missingReason) ∧
      marked.isSeen 2 = true ∧
      ∃ s, marked.solve [⟨4, true⟩, ⟨1, true⟩] .never = (.ok .assumptionConflict, s) ∧
        s.trail.literals = #[⟨1, false⟩, ⟨2, true⟩, ⟨4, true⟩] ∧ s.WellFormed := by
  have probable : ({} : Settings).Probable := Settings.probable_default
  have reached : Reached {} ((State.new {}).run redecided) := reached_run probable (by decide +kernel)
  have analysed : Reached {} marked := reached.tail (.analyse 0 (by decide +kernel))
  have known : ∀ l ∈ [(⟨4, true⟩ : Lit), ⟨1, true⟩], marked.HasAtom l.atom := by decide +kernel
  have answer : (marked.solve [⟨4, true⟩, ⟨1, true⟩] .never).1 = .ok .assumptionConflict := by
    decide +kernel
  have literals : (marked.solve [⟨4, true⟩, ⟨1, true⟩] .never).2.trail.literals =
      #[⟨1, false⟩, ⟨2, true⟩, ⟨4, true⟩] := by decide +kernel
  refine ⟨by decide +kernel, by decide +kernel, ?_⟩
  rcases run : marked.solve [⟨4, true⟩, ⟨1, true⟩] .never with ⟨r, s⟩
  rw [run] at answer literals
  obtain rfl : r = .ok .assumptionConflict := answer
  have solved := solves_of_solve run fun e failed => by cases failed
  exact ⟨s, rfl, literals, wellFormed_of_reached {} s (analysed.tail (.solve _ _ _ s known solved))⟩

end Defeasible.Search.State
