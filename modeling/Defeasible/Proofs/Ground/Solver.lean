import Defeasible.Proofs.Ground.Numbering
import Defeasible.Proofs.Search.Optimizer

/-! A solver answers from all hard clauses given so far. Each of its engines stands for them, with the
clauses that it holds and those that still wait for it, in whatever order clauses and questions came. -/

namespace Defeasible

open Search

def World.penalty (w : World) : List (Clause × Nat) → Nat
  | [] => 0
  | (clause, weight) :: soft => (if clause.Holds w then 0 else weight) + w.penalty soft

theorem Stopwatch.deadline_cases (watch : Stopwatch) (limit? : Option Nat) :
    (∃ limit, limit? = some limit ∧ horizon ≤ limit ∧ watch.deadline limit? = .error .overflow) ∨
      ∃ deadline, watch.deadline limit? = .ok deadline ∧
        ∀ i, deadline i = true → ∃ limit, limit? = some limit ∧ limit < watch i := by
  cases limit? with
  | none => exact .inr ⟨.never, rfl, nofun⟩
  | some limit =>
    rw [deadline]
    split
    · exact .inr ⟨_, rfl, fun i up => ⟨limit, rfl, of_decide_eq_true up⟩⟩
    · next beyond => exact .inl ⟨limit, rfl, Nat.not_lt.1 beyond, rfl⟩

/-- What keeps a solve from an answer: its time is up, or its limit is no time of a clock. Without a limit
nothing does. -/
inductive Settings.Hinders (settings : Settings) : Error → Prop
  | timeUp (limited : settings.solveLimit? ≠ none) : settings.Hinders (.engine .timeUp)
  | overflow (limited : settings.solveLimit? ≠ none) : settings.Hinders (.fault .overflow)

theorem Settings.Hinders.limited {settings : Settings} {e : Error} (hinders : settings.Hinders e) :
    settings.solveLimit? ≠ none := by
  cases hinders <;> assumption

/-- How a limit ends a solve: its time is up, or it was set beyond the times of all clocks. -/
inductive Settings.CutsShort (settings : Settings) : Error → Prop
  | timeUp {limit : Nat} (limited : settings.solveLimit? = some limit) : settings.CutsShort (.engine .timeUp)
  | overflow {limit : Nat} (limited : settings.solveLimit? = some limit) (beyond : Stopwatch.horizon ≤ limit) :
    settings.CutsShort (.fault .overflow)

theorem Settings.CutsShort.hinders {settings : Settings} {e : Error} (cut : settings.CutsShort e) :
    settings.Hinders e := by
  cases cut with
  | timeUp limited => exact .timeUp (limited ▸ Option.some_ne_none _)
  | overflow limited _ => exact .overflow (limited ▸ Option.some_ne_none _)

namespace OnDemand

variable {α : Type} {ready : List (List Lit) → α → Prop} {hard : List (List Lit)}

def Stands (ready : List (List Lit) → α → Prop) (hard : List (List Lit)) : OnDemand α → Prop
  | unbuilt => True
  | built engine pending => ∃ given, ready given engine ∧ given ++ pending = hard

theorem Stands.push {e : OnDemand α} (stands : e.Stands ready hard) (clause : List Lit) :
    (e.push clause).Stands ready (hard ++ [clause]) := by
  cases e with
  | unbuilt => trivial
  | built engine pending =>
    obtain ⟨given, holds, rfl⟩ := stands
    exact ⟨given, holds, (List.append_assoc ..).symm⟩

theorem stands_flushed {engine : α} (h : ready hard engine) : (built engine []).Stands ready hard :=
  ⟨hard, h, List.append_nil hard⟩

end OnDemand

namespace Numbering

def encodeSoft (n : Numbering) (soft : List (Clause × Nat)) : List (List Lit × Nat) :=
  soft.map fun c => (n.encode c.1.toList, c.2)

variable {n : Numbering} {soft : List (Clause × Nat)}

theorem over_encodeSoft (n : Numbering) (soft : List (Clause × Nat)) :
    ∀ c ∈ n.encodeSoft soft, Over n.size c.1 := by
  intro c hc
  obtain ⟨d, -, rfl⟩ := List.mem_map.1 hc
  exact n.over_encode d.1.toList

theorem penalty_encodeSoft {w : World} {v : Valuation} (agrees : n.Agrees v w)
    (has : ∀ c ∈ soft, ∀ l ∈ c.1, n.Has l) :
    penalty v (n.encodeSoft soft) = w.penalty soft := by
  induction soft with
  | nil => rfl
  | cons c soft ih =>
    have same : Satisfies v (n.encode c.1.toList) ↔ c.1.Holds w :=
      satisfies_encode agrees (has c List.mem_cons_self)
    have rest := ih fun d hd => has d (List.mem_cons_of_mem c hd)
    rw [encodeSoft] at rest
    simp only [encodeSoft, List.map_cons, penalty, World.penalty, same, rest]

end Numbering

def Mentions (cs : List Clause) (l : Literal) : Prop := ∃ c ∈ cs, ∃ m ∈ c, m.positive = l.positive

instance (cs : List Clause) (l : Literal) : Decidable (Mentions cs l) :=
  inferInstanceAs (Decidable (∃ c ∈ cs, ∃ m ∈ c.toList, m.positive = l.positive))

namespace Solver

variable {settings : Settings} {hard : List Clause} {soft : List (Clause × Nat)} {s s' : Solver}

structure Ready (settings : Settings) (hard : List Clause) (soft : List (Clause × Nat)) (s : Solver) :
    Prop where
  settings_eq : s.settings = settings
  nodup : s.numbering.literals.Nodup
  has_hard : ∀ c ∈ hard, ∀ l ∈ c, s.numbering.Has l
  has_soft : ∀ c ∈ soft, ∀ l ∈ c.1, s.numbering.Has l
  hard_eq : s.hard.toList = s.numbering.encodeAll hard
  soft_eq : s.soft = s.numbering.encodeSoft soft
  search : s.search.Stands (fun given state => state.Ready settings given s.numbering.size) s.hard.toList
  optimizer :
    s.optimizer.Stands (fun given o => o.Ready settings s.numbering.size given s.soft) s.hard.toList

/-! ### Making a solver -/

theorem registerSoft_spec {n : Numbering} (ground : ∀ c ∈ soft, c.1.isGround = true)
    (positive : ∀ c ∈ soft, c.2 ≠ 0) :
    ∃ n', registerSoft n soft = .ok n' ∧ n.Registers (soft.flatMap fun c => c.1.toList) n' := by
  induction soft generalizing n with
  | nil => exact ⟨n, rfl, .refl n⟩
  | cons c soft ih =>
    obtain ⟨t, run, registers⟩ :=
      Numbering.registerAll_spec (n := n) (List.all_eq_true.1 (ground c List.mem_cons_self))
    obtain ⟨n', rest, registers'⟩ := ih (n := t) (fun d hd => ground d (List.mem_cons_of_mem c hd))
      fun d hd => positive d (List.mem_cons_of_mem c hd)
    refine ⟨n', ?_, registers.trans registers'⟩
    rw [registerSoft, if_neg (positive c List.mem_cons_self), Numbering.registerClause, run]
    exact rest

theorem registerSoft_ok {n n' : Numbering} (run : registerSoft n soft = .ok n') :
    ∀ c ∈ soft, c.1.isGround = true ∧ c.2 ≠ 0 := by
  induction soft generalizing n with
  | nil => exact fun c hc => absurd hc List.not_mem_nil
  | cons c soft ih =>
    rw [registerSoft, Numbering.registerClause] at run
    split at run
    · cases run
    · next positive =>
      split at run
      · cases run
      · next t first =>
        have ground := List.all_eq_true.2 (Numbering.registerAll_ok first)
        exact List.forall_mem_cons.2 ⟨⟨ground, positive⟩, ih run⟩

theorem mapM_ok {α β ε : Type} {f : α → Except ε β} {g : α → β} {as : List α}
    (h : ∀ a ∈ as, f a = .ok (g a)) : as.mapM f = .ok (as.map g) := by
  induction as with
  | nil => rfl
  | cons a as ih =>
    rw [List.mapM_cons, h a List.mem_cons_self, ih fun b hb => h b (List.mem_cons_of_mem a hb)]
    rfl

theorem new_spec (hard : List Clause) (soft : List (Clause × Nat)) (settings : Settings)
    (ground : ∀ c ∈ hard, c.isGround = true) (ground_soft : ∀ c ∈ soft, c.1.isGround = true)
    (positive : ∀ c ∈ soft, c.2 ≠ 0) :
    ∃ s, Solver.new hard soft settings = .ok s ∧ s.Ready settings hard soft ∧
      ∀ l, s.numbering.Has l ↔ Mentions (hard ++ soft.map Prod.fst) l := by
  obtain ⟨n, registeredSoft, registers⟩ := registerSoft_spec (n := {}) ground_soft positive
  obtain ⟨n', registeredHard, registers'⟩ := Numbering.registerClauses_spec (n := n) ground
  have all := registers.trans registers'
  have has (l : Literal) : n'.Has l ↔ Mentions (hard ++ soft.map Prod.fst) l := by
    rw [Numbering.Has, all.mem_iff]
    simp only [Mentions, List.not_mem_nil, false_or, List.mem_append, List.mem_flatMap, List.mem_map]
    constructor
    · rintro ⟨m, ⟨c, hc, hm⟩ | ⟨c, hc, hm⟩, same⟩
      · exact ⟨c.1, .inr ⟨c, hc, rfl⟩, m, hm, same⟩
      · exact ⟨c, .inl hc, m, hm, same⟩
    · rintro ⟨c, hc | ⟨c, hc, rfl⟩, m, hm, same⟩
      · exact ⟨m, .inr ⟨c, hc, hm⟩, same⟩
      · exact ⟨m, .inl ⟨c, hc, hm⟩, same⟩
  have has_hard (c : Clause) (hc : c ∈ hard) (l : Literal) (hl : l ∈ c) : n'.Has l :=
    (has l).2 ⟨c, List.mem_append_left _ hc, l, hl, rfl⟩
  have has_soft (c : Clause × Nat) (hc : c ∈ soft) (l : Literal) (hl : l ∈ c.1) : n'.Has l :=
    (has l).2 ⟨c.1, List.mem_append_right _ (List.mem_map_of_mem hc), l, hl, rfl⟩
  refine ⟨⟨settings, n', (n'.encodeAll hard).toArray, n'.encodeSoft soft, .unbuilt, .unbuilt⟩, ?_,
    ⟨rfl, all.nodup .nil, has_hard, has_soft, rfl, rfl, trivial, trivial⟩, has⟩
  have hards : hard.mapM n'.clause = .ok (n'.encodeAll hard) :=
    mapM_ok fun c hc => Numbering.lits_of_has (has_hard c hc)
  have softs : (soft.mapM fun (c : Clause × Nat) => do return (← n'.clause c.1, c.2)) =
      Except.ok (ε := EngineError) (n'.encodeSoft soft) :=
    mapM_ok fun c hc => by
      have encoded : n'.clause c.1 = .ok (n'.encode c.1.toList) := Numbering.lits_of_has (has_soft c hc)
      rw [encoded]
      rfl
  unfold new
  rw [registeredSoft]
  dsimp only [bind, Except.bind]
  rw [registeredHard]
  dsimp only
  rw [hards]
  dsimp only
  exact softs ▸ rfl

theorem of_new (made : Solver.new hard soft settings = .ok s) :
    (∀ c ∈ hard, c.isGround = true) ∧ ∀ c ∈ soft, c.1.isGround = true ∧ c.2 ≠ 0 := by
  unfold new at made
  cases registeredSoft : registerSoft {} soft with
  | error e => rw [registeredSoft] at made; cases made
  | ok n =>
    rw [registeredSoft] at made
    dsimp only [bind, Except.bind] at made
    cases registeredHard : n.registerClauses hard with
    | error e => rw [registeredHard] at made; cases made
    | ok n' => exact ⟨Numbering.registerClauses_ok registeredHard, registerSoft_ok registeredSoft⟩

theorem new_withSettings (hard : List Clause) (soft : List (Clause × Nat)) (settings settings' : Settings) :
    Solver.new hard soft settings' = (Solver.new hard soft settings).map ({ · with settings := settings' }) := by
  unfold new
  cases registerSoft {} soft with
  | error e => rfl
  | ok n =>
    dsimp only [bind, Except.bind]
    cases n.registerClauses hard with
    | error e => rfl
    | ok n' =>
      dsimp only
      cases hard.mapM n'.clause with
      | error e => rfl
      | ok hard' =>
        dsimp only
        split <;> rfl

/-! ### Questions -/

def Cheapest (hard : List Clause) (soft : List (Clause × Nat)) (answer : Option Witness) : Prop :=
  Settles hard [] answer ∧ ∀ best ∈ answer, ∀ w, (∀ c ∈ hard, c.Holds w) → best.world.penalty soft ≤ w.penalty soft

namespace Ready

theorem over_hard (ready : s.Ready settings hard soft) : ∀ c ∈ s.hard.toList, Over s.numbering.size c := by
  rw [ready.hard_eq]
  exact s.numbering.over_encodeAll hard

theorem models_hard (ready : s.Ready settings hard soft) {v : Valuation} {w : World}
    (agrees : s.numbering.Agrees v w) : Models v s.hard.toList ↔ ∀ c ∈ hard, c.Holds w := by
  rw [ready.hard_eq]
  exact Numbering.models_encodeAll agrees ready.has_hard

theorem currentSearch (ready : s.Ready settings hard soft) :
    ∃ state, s.currentSearch = .ok state ∧ state.Ready settings s.hard.toList s.numbering.size := by
  have bounded := ready.over_hard
  have stands := ready.search
  unfold Solver.currentSearch
  cases engine : s.search with
  | unbuilt =>
    have atoms := (State.Ready.new s.settings).newAtoms s.numbering.size
    rw [Nat.zero_add, ready.settings_eq] at atoms
    rw [ready.settings_eq]
    exact atoms.addClauses bounded
  | built state pending =>
    rw [engine] at stands
    obtain ⟨given, holds, all⟩ := stands
    rw [← all] at bounded ⊢
    exact holds.addClauses fun c hc => bounded c (List.mem_append_right _ hc)

theorem currentOptimizer (ready : s.Ready settings hard soft) :
    ∃ o, s.currentOptimizer = .ok o ∧ o.Ready settings s.numbering.size s.hard.toList s.soft := by
  have bounded := ready.over_hard
  have stands := ready.optimizer
  unfold Solver.currentOptimizer
  cases engine : s.optimizer with
  | unbuilt =>
    rw [ready.settings_eq]
    refine Optimizer.Ready.new settings bounded ?_
    rw [ready.soft_eq]
    exact s.numbering.over_encodeSoft soft
  | built o pending =>
    rw [engine] at stands
    obtain ⟨given, holds, all⟩ := stands
    rw [← all] at bounded ⊢
    exact holds.addAllHard fun c hc => bounded c (List.mem_append_right _ hc)

theorem addClause (ready : s.Ready settings hard soft) {c : Clause} (has : ∀ l ∈ c, s.numbering.Has l) :
    ∃ s', s.addClause c = .ok s' ∧ s'.numbering = s.numbering ∧ s'.Ready settings (hard ++ [c]) soft := by
  have encoded : s.numbering.clause c = .ok (s.numbering.encode c.toList) := Numbering.lits_of_has has
  have added : s.addClause c = .ok { s with
      hard := s.hard.push (s.numbering.encode c.toList)
      search := s.search.push (s.numbering.encode c.toList)
      optimizer := s.optimizer.push (s.numbering.encode c.toList) } := by
    rw [Solver.addClause, encoded]
  refine ⟨_, added, rfl, ?_⟩
  constructor
  · exact ready.settings_eq
  · exact ready.nodup
  · intro d hd
    rcases List.mem_append.1 hd with hd | hd
    · exact ready.has_hard d hd
    · rwa [List.mem_singleton.1 hd]
  · exact ready.has_soft
  · rw [Array.toList_push, ready.hard_eq, Numbering.encodeAll, Numbering.encodeAll, List.map_append]
    rfl
  · exact ready.soft_eq
  · rw [Array.toList_push]
    exact ready.search.push _
  · rw [Array.toList_push]
    exact ready.optimizer.push _

theorem solveAssuming_within (ready : s.Ready settings hard soft) (probable : settings.Probable)
    {as : List Literal} (has : ∀ l ∈ as, s.numbering.Has l) (watch : Stopwatch) :
    ∃ result s', s.solveAssuming as watch = (result, s') ∧ s'.numbering = s.numbering ∧
      s'.Ready settings hard soft ∧
      ((∃ answer, result = .ok answer ∧ Settles hard as answer) ∨
        ∃ e, result = .error e ∧ settings.CutsShort e) := by
  obtain ⟨state, current, built⟩ := ready.currentSearch
  have kept (t : State) (h : t.Ready settings s.hard.toList s.numbering.size) :
      ({ s with search := .built t [] } : Solver).Ready settings hard soft :=
    { ready with search := OnDemand.stands_flushed h }
  have same : s.settings.solveLimit? = settings.solveLimit? := by rw [ready.settings_eq]
  unfold Solver.solveAssuming
  rw [Numbering.lits_of_has has, current, same]
  rcases watch.deadline_cases settings.solveLimit? with
    ⟨limit, limited, beyond, overflow⟩ | ⟨deadline, within, limited⟩
  · rw [overflow]
    exact ⟨_, s, rfl, rfl, ready, .inr ⟨_, rfl, .overflow limited beyond⟩⟩
  have solved := built.solve_within probable (s.numbering.over_encode as) deadline
  rw [within]
  dsimp only
  revert solved
  rcases state.solve (s.numbering.encode as) deadline with ⟨report, t⟩
  rintro (⟨t, i, ⟨⟩, left, up⟩ | answers)
  · obtain ⟨limit, limited, -⟩ := limited i up
    exact ⟨_, _, rfl, rfl, kept t left, .inr ⟨_, rfl, .timeUp limited⟩⟩
  cases answers with
  | satisfiable _ left total models assumed =>
    have agrees := Numbering.agrees_witness ready.nodup t.valuation
    exact ⟨_, _, rfl, rfl, kept t left, .inl ⟨_, rfl, (ready.models_hard agrees).1 models,
      (Numbering.forall_encode agrees has).1 assumed⟩⟩
  | unsatisfiable _ left fails =>
    refine ⟨_, _, rfl, rfl, kept t left, .inl ⟨none, rfl, fun w models _ => ?_⟩⟩
    exact fails (s.numbering.valuation w) ((ready.models_hard (s.numbering.agrees_valuation w)).2 models)
  | assumptionConflict _ left fails =>
    refine ⟨_, _, rfl, rfl, kept t left, .inl ⟨none, rfl, fun w models assumed => ?_⟩⟩
    have agrees := s.numbering.agrees_valuation w
    obtain ⟨x, hx, falsified⟩ := fails _ ((ready.models_hard agrees).2 models)
    exact falsified ((Numbering.forall_encode agrees has).2 assumed x hx)

theorem solveAssuming (ready : s.Ready settings hard soft) (probable : settings.Probable)
    (untimed : settings.solveLimit? = none) {as : List Literal} (has : ∀ l ∈ as, s.numbering.Has l)
    (watch : Stopwatch) :
    ∃ answer s', s.solveAssuming as watch = (.ok answer, s') ∧ s'.numbering = s.numbering ∧
      s'.Ready settings hard soft ∧ Settles hard as answer := by
  obtain ⟨result, s', run, same, left, ⟨answer, rfl, settles⟩ | ⟨e, -, cut⟩⟩ :=
    ready.solveAssuming_within probable has watch
  · exact ⟨answer, s', run, same, left, settles⟩
  · exact absurd untimed cut.hinders.limited

theorem optimize_within (ready : s.Ready settings hard soft) (probable : settings.Probable) (watch : Stopwatch) :
    ∃ result s', s.optimize watch = (result, s') ∧ s'.numbering = s.numbering ∧ s'.Ready settings hard soft ∧
      ((∃ answer, result = .ok answer ∧ Cheapest hard soft answer) ∨
        ∃ limit, settings.optimisationLimit? = some limit ∧
          (result = .ok none ∨ Stopwatch.horizon ≤ limit ∧ result = .error (.fault .overflow))) := by
  obtain ⟨o, current, built⟩ := ready.currentOptimizer
  have kept (o : Optimizer) (h : o.Ready settings s.numbering.size s.hard.toList s.soft) :
      ({ s with optimizer := .built o [] } : Solver).Ready settings hard soft :=
    { ready with optimizer := OnDemand.stands_flushed h }
  have same : s.settings.optimisationLimit? = settings.optimisationLimit? := by rw [ready.settings_eq]
  unfold Solver.optimize
  rw [current, same]
  rcases watch.deadline_cases settings.optimisationLimit? with
    ⟨limit, limited, beyond, overflow⟩ | ⟨deadline, within, limited⟩
  · rw [overflow]
    exact ⟨_, s, rfl, rfl, ready, .inr ⟨limit, limited, .inr ⟨beyond, rfl⟩⟩⟩
  have optimized := built.optimize_within probable deadline
  rw [within]
  dsimp only
  revert optimized
  rcases o.optimize deadline with ⟨optimum, o'⟩
  have agrees := s.numbering.agrees_valuation
  rintro (⟨o', i, ⟨⟩, left, up⟩ | answers)
  · obtain ⟨limit, limited, -⟩ := limited i up
    exact ⟨_, _, rfl, rfl, kept o' left, .inr ⟨limit, limited, .inl rfl⟩⟩
  cases answers with
  | infeasible _ left fails =>
    refine ⟨_, _, rfl, rfl, kept o' left, .inl ⟨none, rfl, fun w models _ => ?_, nofun⟩⟩
    exact fails _ ((ready.models_hard (agrees w)).2 models)
  | optimal best _ left optimal =>
    have read := Numbering.agrees_witness ready.nodup best.model
    refine ⟨_, _, rfl, rfl, kept o' left, .inl ⟨_, rfl, ⟨(ready.models_hard read).1 optimal.models, nofun⟩, ?_⟩⟩
    rintro _ ⟨⟩ w models
    have le := optimal.least _ ((ready.models_hard (agrees w)).2 models)
    rw [optimal.cost_eq, ready.soft_eq, Numbering.penalty_encodeSoft read ready.has_soft,
      Numbering.penalty_encodeSoft (agrees w) ready.has_soft] at le
    exact le

theorem optimize (ready : s.Ready settings hard soft) (probable : settings.Probable)
    (untimed : settings.optimisationLimit? = none) (watch : Stopwatch) :
    ∃ answer s', s.optimize watch = (.ok answer, s') ∧ s'.numbering = s.numbering ∧
      s'.Ready settings hard soft ∧ Settles hard [] answer ∧
      ∀ best ∈ answer, ∀ w, (∀ c ∈ hard, c.Holds w) → best.world.penalty soft ≤ w.penalty soft := by
  obtain ⟨result, s', run, same, left, ⟨answer, rfl, cheapest⟩ | ⟨limit, limited, -⟩⟩ :=
    ready.optimize_within probable watch
  · exact ⟨answer, s', run, same, left, cheapest⟩
  · exact absurd (untimed.symm.trans limited) nofun

end Ready

/-! ### Calls in turn -/

inductive Call
  | addClause (clause : Clause)
  | solve (watch : Stopwatch)
  | solveAssuming (assumptions : List Literal) (watch : Stopwatch)
  | optimize (watch : Stopwatch)

namespace Call

def literals : Call → List Literal
  | addClause clause => clause.toList
  | solveAssuming assumptions _ => assumptions
  | solve _ | optimize _ => []

def clauses : Call → List Clause
  | addClause clause => [clause]
  | solve _ | solveAssuming _ _ | optimize _ => []

end Call

def perform (s : Solver) : Call → Except Error Unit × Solver
  | .addClause clause => match s.addClause clause with
    | .error e => (.error (.engine e), s)
    | .ok s => (.ok (), s)
  | .solve watch => ((s.solve watch).1.map fun _ => (), (s.solve watch).2)
  | .solveAssuming assumptions watch =>
    ((s.solveAssuming assumptions watch).1.map fun _ => (), (s.solveAssuming assumptions watch).2)
  | .optimize watch => ((s.optimize watch).1.map fun _ => (), (s.optimize watch).2)

def run (s : Solver) (calls : List Call) : Solver := calls.foldl (fun s call => (s.perform call).2) s

def accepted (s : Solver) : List Call → List Clause
  | [] => []
  | call :: calls => match s.perform call with
    | (.ok (), s) => call.clauses ++ s.accepted calls
    | (.error _, s) => s.accepted calls

theorem perform_of_not_has {call : Call} (missing : ∃ l ∈ call.literals, ¬ s.numbering.Has l) :
    ∃ l ∈ call.literals, ¬ s.numbering.Has l ∧
      s.perform call = (.error (.engine (.unindexedLiteral l)), s) := by
  obtain ⟨l, hl, new, fails⟩ := Numbering.lits_of_not_has missing
  refine ⟨l, hl, new, ?_⟩
  cases call with
  | addClause clause =>
    have refused : s.numbering.clause clause = .error (.unindexedLiteral l) := fails
    rw [perform, Solver.addClause, refused]
  | solveAssuming assumptions watch =>
    have refused : s.numbering.lits assumptions = .error (.unindexedLiteral l) := fails
    rw [perform, Solver.solveAssuming, refused]
    rfl
  | solve watch | optimize watch => exact absurd hl List.not_mem_nil

theorem Ready.perform_within (ready : s.Ready settings hard soft) (probable : settings.Probable) {call : Call}
    (has : ∀ l ∈ call.literals, s.numbering.Has l) :
    ∃ result s', s.perform call = (result, s') ∧ s'.numbering = s.numbering ∧
      s'.Ready settings (hard ++ call.clauses) soft ∧
      (result = .ok () ∨ call.clauses = [] ∧ (settings.solveLimit? ≠ none ∨ settings.optimisationLimit? ≠ none)) := by
  have answered {watch : Stopwatch} {as : List Literal} (has : ∀ l ∈ as, s.numbering.Has l) :
      ∃ result s', ((s.solveAssuming as watch).1.map fun _ => (), (s.solveAssuming as watch).2) = (result, s') ∧
        s'.numbering = s.numbering ∧ s'.Ready settings (hard ++ []) soft ∧
        (result = .ok () ∨ ([] : List Clause) = [] ∧
          (settings.solveLimit? ≠ none ∨ settings.optimisationLimit? ≠ none)) := by
    obtain ⟨result, s', run, same, ready, settled⟩ := ready.solveAssuming_within probable has watch
    refine ⟨_, s', by rw [run], same, by rwa [List.append_nil], ?_⟩
    rcases settled with ⟨answer, rfl, -⟩ | ⟨e, -, cut⟩
    · exact .inl rfl
    · exact .inr ⟨rfl, .inl cut.hinders.limited⟩
  cases call with
  | addClause clause =>
    obtain ⟨s', added, same, ready⟩ := ready.addClause has
    exact ⟨_, s', by rw [Solver.perform, added], same, ready, .inl rfl⟩
  | solve watch => exact answered nofun
  | solveAssuming assumptions watch => exact answered has
  | optimize watch =>
    obtain ⟨result, s', run, same, ready, optimized⟩ := ready.optimize_within probable watch
    refine ⟨_, s', by rw [Solver.perform, run], same, by rwa [Call.clauses, List.append_nil], ?_⟩
    rcases optimized with ⟨answer, rfl, -⟩ | ⟨limit, limited, -⟩
    · exact .inl rfl
    · exact .inr ⟨rfl, .inr (limited ▸ Option.some_ne_none limit)⟩

theorem Ready.perform (ready : s.Ready settings hard soft) (probable : settings.Probable)
    (untimed : settings.solveLimit? = none) (untimed_optimize : settings.optimisationLimit? = none) {call : Call}
    (has : ∀ l ∈ call.literals, s.numbering.Has l) :
    ∃ s', s.perform call = (.ok (), s') ∧ s'.numbering = s.numbering ∧
      s'.Ready settings (hard ++ call.clauses) soft := by
  obtain ⟨result, s', performed, same, ready, rfl | ⟨-, limited⟩⟩ := ready.perform_within probable has
  · exact ⟨s', performed, same, ready⟩
  · exact absurd limited (not_or.2 ⟨not_not.2 untimed, not_not.2 untimed_optimize⟩)

/-- Whichever calls are cut short, a solver is ready with the clauses of those that succeed. -/
theorem Ready.run (ready : s.Ready settings hard soft) (probable : settings.Probable) (calls : List Call) :
    (s.run calls).numbering = s.numbering ∧
      (s.run calls).Ready settings (hard ++ s.accepted calls) soft := by
  induction calls generalizing s hard with
  | nil => exact ⟨rfl, by rwa [accepted, List.append_nil]⟩
  | cons call calls ih =>
    rw [Solver.run, List.foldl_cons, accepted]
    by_cases has : ∀ l ∈ call.literals, s.numbering.Has l
    · obtain ⟨result, t, performed, same, ready, succeeds⟩ := ready.perform_within probable has
      obtain ⟨same', ready⟩ := ih ready
      rw [performed]
      refine ⟨same'.trans same, ?_⟩
      rcases succeeds with rfl | ⟨none, -⟩
      · rwa [List.append_assoc] at ready
      · rw [none, List.append_nil] at ready
        cases result
        · exact ready
        · rwa [none]
    · obtain ⟨l, -, -, performed⟩ := perform_of_not_has (by simpa only [not_forall, exists_prop] using has)
      rw [performed]
      exact ih ready

/-- Whatever calls came before, a solver answers from the hard clauses it has accepted, and a call that it
fails for the want of a number does not count. -/
theorem answers_of_calls (settings : Settings) (probable : settings.Probable)
    (untimed : settings.solveLimit? = none) (untimed_optimize : settings.optimisationLimit? = none)
    (hard : List Clause) (soft : List (Clause × Nat)) (s : Solver)
    (made : Solver.new hard soft settings = .ok s) (calls : List Call) :
    let given := hard ++ s.accepted calls
    let known := Mentions (hard ++ soft.map Prod.fst)
    (∀ as watch, (∀ l ∈ as, known l) → ∃ answer, ((s.run calls).solveAssuming as watch).1 = .ok answer ∧
      (answer.isSome = true ↔ ∃ w, (∀ c ∈ given, c.Holds w) ∧ ∀ l ∈ as, l.Holds w) ∧
      ∀ witness ∈ answer, (∀ c ∈ given, c.Holds witness.world) ∧ ∀ l ∈ as, l.Holds witness.world) ∧
    (∀ watch, ∃ answer, ((s.run calls).optimize watch).1 = .ok answer ∧
      (answer.isSome = true ↔ ∃ w, ∀ c ∈ given, c.Holds w) ∧
      ∀ best ∈ answer, (∀ c ∈ given, c.Holds best.world) ∧
        ∀ w, (∀ c ∈ given, c.Holds w) → best.world.penalty soft ≤ w.penalty soft) ∧
    (∀ call, (∀ l ∈ call.literals, known l) → ((s.run calls).perform call).1 = .ok ()) ∧
    ∀ call, (∃ l ∈ call.literals, ¬ known l) →
      (∃ l ∈ call.literals, ¬ known l ∧
        ((s.run calls).perform call).1 = .error (.engine (.unindexedLiteral l))) ∧
      ∀ more, s.run (calls ++ call :: more) = s.run (calls ++ more) := by
  obtain ⟨ground, weighed⟩ := of_new made
  obtain ⟨t, made', ready, has⟩ := new_spec hard soft settings ground
    (fun c hc => (weighed c hc).1) fun c hc => (weighed c hc).2
  obtain rfl := Except.ok.inj (made.symm.trans made')
  obtain ⟨same, ready⟩ := ready.run probable calls
  rw [← same] at has
  refine ⟨fun as watch known => ?_, fun watch => ?_, fun call known => ?_, fun call unknown => ?_⟩
  · obtain ⟨answer, _, answered, -, -, settles⟩ :=
      ready.solveAssuming probable untimed (fun l hl => (has l).2 (known l hl)) watch
    refine ⟨answer, by rw [answered], settles.isSome_iff, ?_⟩
    rintro witness ⟨⟩
    exact settles
  · obtain ⟨answer, _, answered, -, -, settles, least⟩ := ready.optimize probable untimed_optimize watch
    refine ⟨answer, by rw [answered], settles.isSome_iff.trans ?_, ?_⟩
    · simp only [List.not_mem_nil, false_implies, implies_true, and_true]
    · rintro best ⟨⟩
      exact ⟨settles.1, least best rfl⟩
  · obtain ⟨s', performed, -⟩ :=
      ready.perform probable untimed untimed_optimize fun l hl => (has l).2 (known l hl)
    rw [performed]
  · simp only [← has] at unknown ⊢
    obtain ⟨l, hl, new, performed⟩ := perform_of_not_has unknown
    refine ⟨⟨l, hl, new, by rw [performed]⟩, fun more => ?_⟩
    have left : ((s.run calls).perform call).2 = s.run calls := by rw [performed]
    rw [Solver.run, Solver.run, List.foldl_append, List.foldl_append, List.foldl_cons]
    exact congrArg (fun t => List.foldl _ t more) left

theorem answers_of_sample : ∃ s answer,
    Solver.new [.ofList [⟨"a", [], true⟩, ⟨"b", [], true⟩]] [(.unit ⟨"a", [], false⟩, 2)] {} = .ok s ∧
      ((s.run [.solve fun _ => 0, .addClause (.unit ⟨"b", [], false⟩), .optimize fun _ => 0,
        .addClause (.unit ⟨"c", [], true⟩)]).solveAssuming [⟨"a", [], true⟩] fun _ => 0).1 = .ok answer ∧
      answer.isSome = true := by
  let s : Solver := ⟨{}, ⟨[⟨"a", [], true⟩, ⟨"b", [], true⟩]⟩, #[[⟨1, true⟩, ⟨2, true⟩]],
    [([⟨1, false⟩], 2)], .unbuilt, .unbuilt⟩
  obtain ⟨solved, -⟩ := answers_of_calls {} Settings.probable_default rfl rfl
    [.ofList [⟨"a", [], true⟩, ⟨"b", [], true⟩]] [(.unit ⟨"a", [], false⟩, 2)] s rfl
    [.solve fun _ => 0, .addClause (.unit ⟨"b", [], false⟩), .optimize fun _ => 0,
      .addClause (.unit ⟨"c", [], true⟩)]
  obtain ⟨answer, answered, exact, -⟩ := solved [⟨"a", [], true⟩] (fun _ => 0) (by decide +kernel)
  have accepted : s.accepted [.solve fun _ => 0, .addClause (.unit ⟨"b", [], false⟩), .optimize fun _ => 0,
      .addClause (.unit ⟨"c", [], true⟩)] = [.unit ⟨"b", [], false⟩] := by decide +kernel
  rw [accepted] at exact
  exact ⟨s, answer, rfl, answered, exact.2 ⟨fun l => decide (l = ⟨"a", [], true⟩), by decide +kernel⟩⟩

end Solver

end Defeasible
