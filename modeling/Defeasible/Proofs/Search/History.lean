import Defeasible.Proofs.Search.Adding

/-! Histories: any operations on a search, in any order. A solve is right about the clauses that were
added before it, whatever came between. -/

namespace Defeasible.Search

inductive Operation
  | newAtom
  | addClause (clause : List Lit)
  | solve (assumptions : List Lit) (deadline : Deadline)
  | backjump (target : Nat)
  | makeDecision (assumptions : List Lit)
  | propagate

namespace Operation

def literals : Operation → List Lit
  | addClause clause => clause
  | solve assumptions _ => assumptions
  | makeDecision assumptions => assumptions
  | newAtom | backjump _ | propagate => []

def clauses : Operation → List (List Lit)
  | addClause clause => [clause]
  | newAtom | solve _ _ | backjump _ | makeDecision _ | propagate => []

end Operation

namespace State

def perform (s : State) : Operation → State
  | .newAtom => s.newAtom.2
  | .addClause clause => (s.addClause clause).toOption.getD s
  | .solve assumptions deadline => (s.solve assumptions deadline).2
  | .backjump target => s.backjump target
  | .makeDecision assumptions => (s.makeDecision assumptions).2
  | .propagate => s.propagate.2

def run (s : State) (ops : List Operation) : State := ops.foldl perform s

def Legal (s : State) : List Operation → Prop
  | [] => True
  | op :: ops => (∀ l ∈ op.literals, s.HasAtom l.atom) ∧ Legal (s.perform op) ops

instance decidableLegal : (s : State) → (ops : List Operation) → Decidable (s.Legal ops)
  | _, [] => inferInstanceAs (Decidable True)
  | s, op :: ops =>
    have := decidableLegal (s.perform op) ops
    inferInstanceAs (Decidable ((∀ l ∈ op.literals, s.HasAtom l.atom) ∧ Legal (s.perform op) ops))

end State

def added (ops : List Operation) : List (List Lit) := ops.flatMap Operation.clauses

namespace State

variable {s s' : State} {settings : Settings} {clauses : List (List Lit)} {assumptions : List Lit}
  {ops : List Operation}

theorem remaining_openLevel (s : State) :
    { s with trail := s.trail.openLevel }.remaining 0 = s.remaining 0 := by
  simp only [remaining, Trail.openLevel, Array.getElem?_push]
  split
  · next h => rw [Array.getElem?_eq_none (Nat.le_of_eq h.symm)]; rfl
  · rfl

theorem Settled.openLevel (settled : s.Settled) : { s with trail := s.trail.openLevel }.Settled := by
  refine settled.imp_right fun ⟨guarded, le⟩ => ?_
  rw [remaining_openLevel]
  exact ⟨guarded, le⟩

theorem Settled.decide (settled : s.Settled) (h : s.Coherent) {l : Lit} (hasAtom : s.HasAtom l.atom)
    (free : s.value? l.atom = none) : (s.decide l).Settled := by
  refine settled.openLevel.imp_right fun ⟨guarded, le⟩ => ?_
  have hopen := h.openLevel
  have hle := hopen.remaining_le 0
  have start : 0 < s.trail.openLevel.starts.size := by simp [Trail.openLevel]
  have same : (s.decide l).remaining 0 = { s with trail := s.trail.openLevel }.remaining 0 := by
    simp only [remaining, State.decide, starts_assign]
    rw [Array.getElem?_eq_getElem start]
    rfl
  rw [same]
  exact ⟨guarded.assign hopen none hasAtom free hle, le⟩

theorem Decides.settled {d : Except Fault Decision} (decides : Decides assumptions s d s')
    (settled : s.Settled) (h : s.Coherent) (known : ∀ a ∈ assumptions, s.HasAtom a.atom) :
    s'.Settled := by
  cases decides with
  | satisfied l next holds => exact settled.openLevel
  | conflict l next fails => exact settled
  | assumed l next free =>
    exact settled.decide h (known l (List.mem_of_getElem? next)) ((value?_eq_none_iff s l).2 free)
  | free atom b t random counters last chosen =>
    obtain ⟨hasAtom, free⟩ := chosen.free atom rfl
    have decided := settled.decide h (l := ⟨atom, b⟩) hasAtom free
    rw [chosen.eq]
    exact decided
  | exhausted _ last chosen =>
    rw [chosen.eq]
    exact settled
  | failed e _ improbable eq queued =>
    rw [eq]
    exact settled

theorem Settled.propagates {conflict : Option Nat} (settled : s.Settled)
    (p : Propagates s conflict s') (drawn : s.propagate = (conflict, s')) : s'.Settled := by
  rcases settled with refuted | ⟨guarded, le⟩
  · exact .inl (p.grows.refuted.trans refuted)
  · by_cases zero : s.trail.starts.size = 0
    · -- at level zero, nothing is left to draw
      have none (i : Nat) : s.trail.starts[i]? = none := Array.getElem?_eq_none (by omega)
      have hsize : s.remaining 0 = s.trail.literals.size := by rw [remaining, none]; rfl
      have next : s.trail.next? = Option.none := by
        rw [Trail.next?, Array.getElem?_eq_none (by omega)]
        rfl
      rw [propagate, propagateUpTo, next] at drawn
      obtain ⟨-, rfl⟩ := Prod.mk.inj drawn
      exact .inr ⟨guarded, le⟩
    · have same : s'.remaining 0 = s.remaining 0 := by
        simp only [remaining]
        rw [p.grows.starts, Array.getElem?_eq_getElem (show 0 < s.trail.starts.size by omega)]
        rfl
      rw [Settled, same]
      exact .inr ⟨p.guarded _ le guarded, Nat.le_trans le p.grows.head_le⟩

theorem perform_spec (inv : s.Invariant settings clauses) (settled : s.Settled) (op : Operation)
    (legal : ∀ l ∈ op.literals, s.HasAtom l.atom) :
    (s.perform op).Invariant settings (clauses ++ op.clauses) ∧ (s.perform op).Settled := by
  cases op with
  | newAtom =>
    rw [Operation.clauses, List.append_nil]
    exact ⟨inv.newAtom, settled.newAtom⟩
  | addClause clause =>
    have known : ∀ l ∈ clause, s.HasAtom l.atom := legal
    obtain ⟨t, run, inv', settled'⟩ := addClause_spec inv settled known
    rw [perform, run]
    exact ⟨inv', settled'⟩
  | solve assumptions deadline =>
    rw [Operation.clauses, List.append_nil]
    have concludes := solve_spec inv settled legal deadline
    exact ⟨concludes.invariant, concludes.settled⟩
  | backjump target =>
    rw [Operation.clauses, List.append_nil]
    exact ⟨inv.backjump target, settled.backjump inv.coherent target⟩
  | makeDecision assumptions =>
    rw [Operation.clauses, List.append_nil]
    have decides := makeDecision_spec inv.queued legal
    exact ⟨decides.invariant inv legal, decides.settled settled inv.coherent legal⟩
  | propagate =>
    rw [Operation.clauses, List.append_nil, perform]
    rcases drawn : s.propagate with ⟨conflict, t⟩
    have p := propagate_spec inv.coherent inv.watched drawn
    exact ⟨inv.propagates p, settled.propagates p drawn⟩

theorem run_spec (inv : s.Invariant settings clauses) (settled : s.Settled) (legal : s.Legal ops) :
    (s.run ops).Invariant settings (clauses ++ added ops) ∧ (s.run ops).Settled := by
  induction ops generalizing s clauses with
  | nil =>
    rw [added, List.flatMap_nil, List.append_nil]
    exact ⟨inv, settled⟩
  | cons op ops ih =>
    obtain ⟨inv', settled'⟩ := perform_spec inv settled op legal.1
    have rest := ih inv' settled' legal.2
    rw [List.append_assoc] at rest
    exact rest

theorem history_spec (settings : Settings) (legal : (State.new settings).Legal ops) :
    ((State.new settings).run ops).Invariant settings (added ops) ∧
      ((State.new settings).run ops).Settled :=
  run_spec (new_invariant settings) (new_settled settings) legal

theorem Searching.models {m : Nat} (g : Searching assumptions m s) (inv : s.Invariant settings clauses)
    (complete : s.trail.literals.size ≤ m) (valued : ∀ atom, s.HasAtom atom → s.value? atom ≠ none)
    {clause : List Lit} (mem : clause ∈ clauses) : ∃ l ∈ clause, s.litValue? l = some true := by
  have h := inv.coherent
  have decided (l : Lit) (hasAtom : s.HasAtom l.atom) :
      l ∈ s.trail.literals ∨ l.negate ∈ s.trail.literals := by
    have := valued l.atom hasAtom
    rw [ne_eq, value?_eq_none_iff, h.none_iff] at this
    tauto
  have kept := inv.kept.resolve_left (by simp [g.unrefuted]) clause mem
  suffices ∃ l ∈ clause, l ∈ s.trail.literals by
    obtain ⟨l, hl, on⟩ := this
    exact ⟨l, hl, (h.value_iff l).2 on⟩
  rcases kept with ⟨l, hl, on, -⟩ | ⟨l, pos, neg, hasAtom⟩ | ⟨key, c, hc, sub⟩
  · exact ⟨l, hl, on⟩
  · exact (decided l hasAtom).elim (fun on => ⟨l, pos, on⟩) fun on => ⟨l.negate, neg, on⟩
  · -- one of the two watched literals is true
    have hsize := h.clause_size key c hc
    have h0 := Array.getElem?_eq_getElem (show 0 < c.size by omega)
    have h1 := Array.getElem?_eq_getElem (show 1 < c.size by omega)
    have m0 := Array.mem_of_getElem? h0
    rcases decided _ (h.clause_hasAtom key c hc _ m0) with on | neg
    · exact ⟨_, sub _ m0, on⟩
    · obtain ⟨i, hi⟩ := Array.mem_iff_getElem?.1 neg
      have lt := (Array.getElem?_eq_some_iff.1 hi).1
      exact ⟨_, sub _ (Array.mem_of_getElem? h1),
        (g.guarded key c _ _ hc (.inl ⟨h0, h1⟩) i (by omega) hi).1⟩

def sample : List Operation :=
  [.newAtom, .newAtom, .newAtom, .addClause [⟨1, true⟩, ⟨2, true⟩], .addClause [⟨1, false⟩, ⟨2, true⟩],
    .addClause [⟨1, true⟩, ⟨2, false⟩], .makeDecision [⟨3, true⟩], .propagate, .backjump 0,
    .solve [⟨1, false⟩] .never, .newAtom, .addClause [⟨4, true⟩, ⟨3, true⟩]]

/-- A solve that finds the clauses satisfiable leaves a model of all of them, and of the assumptions. -/
theorem model_of_satisfiable (settings : Settings) (probable : settings.Probable) (ops : List Operation)
    (legal : (State.new settings).Legal ops) (assumptions : List Lit)
    (known : ∀ a ∈ assumptions, ((State.new settings).run ops).HasAtom a.atom) (deadline : Deadline)
    (s : State)
    (solved : ((State.new settings).run ops).solve assumptions deadline = (.ok .satisfiable, s)) :
    (∀ atom, s.HasAtom atom → s.value? atom ≠ none) ∧
      (∀ clause ∈ added ops, ∃ l ∈ clause, s.litValue? l = some true) ∧
      ∀ a ∈ assumptions, s.litValue? a = some true := by
  obtain ⟨inv, settled⟩ := history_spec settings legal
  have concludes := solve_spec inv settled known deadline
  rw [solved] at concludes
  have h := concludes.invariant.coherent
  cases concludes.answered with
  | satisfiable _ g complete last valued =>
    refine ⟨valued probable, fun clause mem => ?_, fun a mem => ?_⟩
    · exact g.models concludes.invariant (Nat.le_of_eq complete.symm) (valued probable) mem
    · obtain ⟨j, hj⟩ := List.mem_iff_getElem?.1 mem
      have lt := (List.getElem?_eq_some_iff.1 hj).1
      exact (h.value_iff a).2 (g.assumed j a hj (by omega)).1

theorem model_of_sample : ∃ s,
    ((State.new {}).run sample).solve [⟨3, false⟩] .never = (.ok .satisfiable, s) ∧
      (∀ atom, s.HasAtom atom → s.value? atom ≠ none) ∧
      (∀ clause ∈ added sample, ∃ l ∈ clause, s.litValue? l = some true) ∧
      ∀ a ∈ [⟨3, false⟩], s.litValue? a = some true := by
  have answer : (((State.new {}).run sample).solve [⟨3, false⟩] .never).1 = .ok .satisfiable := by
    decide +kernel
  have probable : ({} : Settings).Probable := Settings.probable_default
  rcases solved : ((State.new {}).run sample).solve [⟨3, false⟩] .never with ⟨r, s⟩
  rw [solved] at answer
  obtain rfl : r = .ok .satisfiable := answer
  exact ⟨s, rfl, model_of_satisfiable {} probable sample (by decide +kernel) [⟨3, false⟩]
    (by decide +kernel) .never s solved⟩

/-- After any history, what is stored and what is true at level zero follow from the clauses that were
added alone. So the clauses have no model if they are found unsatisfiable, and none that makes the
assumptions true if these are found in conflict. -/
theorem entailed_of_added (settings : Settings) (ops : List Operation)
    (legal : (State.new settings).Legal ops) :
    (∀ (key : Nat) (c : Array Lit), ((State.new settings).run ops).clauses[key]? = some c →
      Entails (added ops) c.toList) ∧
    (∀ l : Lit, ((State.new settings).run ops).litValue? l = some true →
      ((State.new settings).run ops).level l.atom = 0 → Entails (added ops) [l]) ∧
    (((State.new settings).run ops).refuted = true → ∀ v, ¬ Models v (added ops)) ∧
    ∀ (assumptions : List Lit) (deadline : Deadline),
      (∀ a ∈ assumptions, ((State.new settings).run ops).HasAtom a.atom) →
        ((((State.new settings).run ops).solve assumptions deadline).1 = .ok .unsatisfiable →
          ∀ v, ¬ Models v (added ops)) ∧
        ((((State.new settings).run ops).solve assumptions deadline).1 = .ok .assumptionConflict →
          ∀ v, Models v (added ops) → ∃ a ∈ assumptions, ¬ a.Holds v) := by
  obtain ⟨inv, settled⟩ := history_spec settings legal
  refine ⟨inv.entailed, fun l holds zero => ?_, inv.refuted, fun assumptions deadline known => ?_⟩
  · have on := (inv.coherent.value_iff l).1 holds
    exact entails_singleton.2 fun v hv => (inv.agrees hv).fixed l on zero
  · have concludes := solve_spec inv settled known deadline
    revert concludes
    rcases ((State.new settings).run ops).solve assumptions deadline with ⟨r, s⟩
    intro concludes
    refine ⟨fun heq => ?_, fun heq => ?_⟩
    · obtain rfl : r = .ok .unsatisfiable := heq
      cases concludes.answered with
      | unsatisfiable _ refuted => exact concludes.invariant.refuted refuted
    · obtain rfl : r = .ok .assumptionConflict := heq
      cases concludes.answered with
      | assumptionConflict _ fails => exact fails

theorem entailed_of_sample :
    (((State.new {}).run sample).solve [⟨1, false⟩] .never).1 = .ok .assumptionConflict ∧
      ∀ v, Models v (added sample) → ∃ a ∈ [(⟨1, false⟩ : Lit)], ¬ a.Holds v := by
  obtain ⟨-, -, -, answers⟩ := entailed_of_added {} sample (by decide +kernel)
  have solved : (((State.new {}).run sample).solve [⟨1, false⟩] .never).1 = .ok .assumptionConflict := by
    decide +kernel
  exact ⟨solved, (answers [⟨1, false⟩] .never (by decide +kernel)).2 solved⟩

end State

end Defeasible.Search
