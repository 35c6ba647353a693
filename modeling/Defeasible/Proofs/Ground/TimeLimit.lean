import Defeasible.Proofs.Ground.Solver
import Defeasible.Proofs.Search.History

/-! Solves with a limit on their time. Until a look at the time says that it is up a solve does what it would do
without a limit, and a search that was stopped is as good as any other for the questions to come. -/

namespace Defeasible

namespace Search.State

variable {settings : Settings} {ops : List Operation} {s : State}

/-! ### The search -/

theorem pass_deadline (assumptions : List Lit) (deadline : Deadline) (s : State) :
    (∃ i t, s.pass assumptions deadline = .inl (.ok .timeUp, t) ∧ deadline i = true) ∨
      s.pass assumptions deadline = s.pass assumptions .never := by
  unfold pass
  rcases s.propagate with ⟨_ | key, t⟩
  · cases up : deadline t.checks with
    | true => exact .inl ⟨t.checks, _, by dsimp only; rw [up, if_pos rfl], up⟩
    | false =>
      dsimp only
      rw [up]
      exact .inr rfl
  · exact .inr rfl

theorem search_deadline (assumptions : List Lit) (deadline : Deadline) (fuel : Nat) (s : State) :
    (∃ i t, search assumptions deadline fuel s = (.ok .timeUp, t) ∧ deadline i = true) ∨
      search assumptions deadline fuel s = search assumptions .never fuel s := by
  induction fuel generalizing s with
  | zero => exact .inr rfl
  | succ fuel ih =>
    rw [search, search]
    rcases pass_deadline assumptions deadline s with ⟨i, t, run, up⟩ | same
    · exact .inl ⟨i, t, by rw [run], up⟩
    · rw [same]
      rcases s.pass assumptions .never with answer | t
      · exact .inr rfl
      · exact ih t

theorem solve_deadline (s : State) (assumptions : List Lit) (deadline : Deadline) :
    (∃ i t, s.solve assumptions deadline = (.ok .timeUp, t) ∧ deadline i = true) ∨
      s.solve assumptions deadline = s.solve assumptions .never := by
  unfold solve
  dsimp only
  split
  · exact .inr rfl
  · exact search_deadline ..

theorem ready_of_legal (legal : (State.new settings).Legal ops) :
    ((State.new settings).run ops).Ready settings (added ops) ((State.new settings).run ops).atomCount := by
  obtain ⟨invariant, settled⟩ := history_spec settings legal
  refine ⟨invariant, settled, ?_⟩
  have pos := invariant.coherent.size_pos
  rw [atomCount]
  omega

theorem over_of_known {assumptions : List Lit} (known : ∀ a ∈ assumptions, s.HasAtom a.atom) :
    Over s.atomCount assumptions := fun a ha => by
  obtain ⟨pos, lt⟩ := known a ha
  exact ⟨pos, Nat.le_sub_one_of_lt lt⟩

def Tells (clauses : List (List Lit)) (assumptions : List Lit) : Report → Prop
  | .satisfiable => ∃ v, Models v clauses ∧ ∀ a ∈ assumptions, a.Holds v
  | .unsatisfiable => ∀ v, ¬ Models v clauses
  | .assumptionConflict => ∀ v, Models v clauses → ∃ a ∈ assumptions, ¬ a.Holds v
  | .timeUp => False

/-- What a limit may do to a solve: it ends it, but only when a look at the time says so, and does not change its
answer, which is right. -/
structure Bears (s : State) (clauses : List (List Lit)) (assumptions : List Lit) (deadline : Deadline) : Prop where
  same : (∃ i t, s.solve assumptions deadline = (.ok .timeUp, t) ∧ deadline i = true) ∨
    s.solve assumptions deadline = s.solve assumptions .never
  right : ∃ report t, s.solve assumptions .never = (.ok report, t) ∧ Tells clauses assumptions report

theorem bears_of_legal (probable : settings.Probable) (legal : (State.new settings).Legal ops)
    {assumptions : List Lit} (known : ∀ a ∈ assumptions, ((State.new settings).run ops).HasAtom a.atom)
    (deadline : Deadline) : ((State.new settings).run ops).Bears (added ops) assumptions deadline := by
  refine ⟨solve_deadline .., ?_⟩
  have answers := (ready_of_legal legal).solve probable (over_of_known known)
  revert answers
  rcases ((State.new settings).run ops).solve assumptions .never with ⟨r, t⟩
  intro answers
  cases answers with
  | satisfiable _ _ _ models holds => exact ⟨_, t, rfl, _, models, holds⟩
  | unsatisfiable _ _ fails => exact ⟨_, t, rfl, fails⟩
  | assumptionConflict _ _ fails => exact ⟨_, t, rfl, fails⟩

end Search.State

/-! ### The solver -/

def Settings.untimed (settings : Settings) : Settings :=
  { settings with timeLimit := { settings.timeLimit with value := 0 } }

theorem Stopwatch.exists_deadline {limit : Nat} (within : limit < horizon) (deadline : Search.Deadline) :
    ∃ watch : Stopwatch, watch.deadline (some limit) = .ok deadline := by
  refine ⟨fun check => if deadline check then limit + 1 else 0, ?_⟩
  rw [Stopwatch.deadline, if_pos within]
  refine congrArg Except.ok (funext fun check => ?_)
  cases deadline check <;> simp

theorem Settings.solveLimit?_untimed (settings : Settings) : settings.untimed.solveLimit? = none := rfl

structure Settings.Clocked (s : Settings) : Prop where
  solve : ∀ limit, s.solveLimit? = some limit → limit < Stopwatch.horizon
  optimisation : ∀ limit, s.optimisationLimit? = some limit → limit < Stopwatch.horizon

theorem Settings.Clocked.eq_timeUp {settings : Settings} {e : Error} (clocked : settings.Clocked)
    (cut : settings.CutsShort e) : e = .engine .timeUp := by
  cases cut with
  | timeUp _ => rfl
  | overflow limited beyond => exact absurd (clocked.solve _ limited) (Nat.not_lt.2 beyond)

theorem Settings.Probable.untimed {settings : Settings} (probable : settings.Probable) : settings.untimed.Probable :=
  ⟨probable.lean, probable.bias⟩

namespace Solver

variable {settings : Settings} {hard : List Clause} {soft : List (Clause × Nat)} {s s₀ : Solver}

theorem accepted_eq (ready : s.Ready settings hard soft) (probable : settings.Probable) (calls : List Call)
    {known : Literal → Prop} [DecidablePred known] (known_iff : ∀ l, s.numbering.Has l ↔ known l) :
    s.accepted calls = calls.flatMap fun call => if ∀ l ∈ call.literals, known l then call.clauses else [] := by
  induction calls generalizing s hard with
  | nil => rfl
  | cons call calls ih =>
    rw [accepted, List.flatMap_cons]
    by_cases has : ∀ l ∈ call.literals, known l
    · obtain ⟨result, t, performed, same, ready, succeeds⟩ :=
        ready.perform_within probable fun l hl => (known_iff l).2 (has l hl)
      rw [performed, if_pos has, ← ih ready fun l => same ▸ known_iff l]
      rcases succeeds with rfl | ⟨none, -⟩
      · rfl
      · rw [none]
        cases result <;> rfl
    · have missing : ∃ l ∈ call.literals, ¬ s.numbering.Has l := by
        simpa only [not_forall, exists_prop, known_iff] using has
      obtain ⟨l, -, -, performed⟩ := perform_of_not_has missing
      rw [performed, if_neg has]
      exact ih ready known_iff

/-- What a limit may do to the answers of a solver to some literals after some calls: it ends a solve, but does not
change an answer, and whatever was stopped before the answers are right about what was accepted. -/
structure Bears (settings : Settings) (given : List Clause) (soft : List (Clause × Nat)) (s s₀ : Solver)
    (as : List Literal) (watch : Stopwatch) : Prop where
  same : (s.solveAssuming as watch).1 = .error (.engine .timeUp) ∨
    (s.solveAssuming as watch).1.map Option.isSome = (s₀.solveAssuming as watch).1.map Option.isSome
  right : ∀ answer, (s.solveAssuming as watch).1 = .ok answer → Settles given as answer
  optimum : (∃ answer, (s.optimize watch).1 = .ok answer ∧ Cheapest given soft answer) ∨
    settings.optimisationLimit? ≠ none ∧ (s.optimize watch).1 = .ok none

theorem bears_of_ready {given : List Clause} (probable : settings.Probable) (clocked : settings.Clocked)
    (ready : s.Ready settings given soft) (ready₀ : s₀.Ready settings.untimed given soft)
    (same : s₀.numbering = s.numbering) (as : List Literal) (watch : Stopwatch) :
    Bears settings given soft s s₀ as watch := by
  obtain ⟨best, _, optimized, -, -, found⟩ := ready.optimize_within probable watch
  obtain rfl : (s.optimize watch).1 = best := congrArg Prod.fst optimized
  have optimum : (∃ answer, (s.optimize watch).1 = .ok answer ∧ Cheapest given soft answer) ∨
      settings.optimisationLimit? ≠ none ∧ (s.optimize watch).1 = .ok none := by
    refine found.imp_right ?_
    rintro ⟨limit, limited, none | ⟨beyond, -⟩⟩
    · exact ⟨limited ▸ Option.some_ne_none limit, none⟩
    · exact absurd (clocked.optimisation limit limited) (Nat.not_lt.2 beyond)
  by_cases has : ∀ l ∈ as, s.numbering.Has l
  · obtain ⟨_, _, run, -, -, settled⟩ := ready.solveAssuming_within probable has watch
    obtain ⟨answer₀, _, run₀, -, -, settles₀⟩ :=
      ready₀.solveAssuming probable.untimed (Settings.solveLimit?_untimed settings) (same ▸ has) watch
    rcases settled with ⟨answer, rfl, settles⟩ | ⟨e, rfl, cut⟩
    · refine ⟨.inr ?_, fun _ answered => ?_, optimum⟩
      · rw [run, run₀]
        exact congrArg Except.ok (Bool.eq_iff_iff.2 (settles.isSome_iff.trans settles₀.isSome_iff.symm))
      · rw [run] at answered
        cases answered
        exact settles
    · obtain rfl := clocked.eq_timeUp cut
      refine ⟨.inl (by rw [run]), fun _ answered => ?_, optimum⟩
      rw [run] at answered
      cases answered
  · -- The first literal without a number is the same for both.
    obtain ⟨l, -, -, fails⟩ := Numbering.lits_of_not_has (by simpa only [not_forall, exists_prop] using has)
    refine ⟨.inr ?_, fun _ answered => ?_, optimum⟩
    · rw [Solver.solveAssuming, Solver.solveAssuming, same, fails]
    · rw [Solver.solveAssuming, fails] at answered
      cases answered

theorem bears_of_calls (probable : settings.Probable) (clocked : settings.Clocked)
    (made : Solver.new hard soft settings = .ok s) :
    ∃ s₀, Solver.new hard soft settings.untimed = .ok s₀ ∧ ∀ calls, s.accepted calls = s₀.accepted calls ∧
      ∀ as watch, Bears settings (hard ++ s.accepted calls) soft (s.run calls) (s₀.run calls) as watch := by
  classical
  obtain ⟨ground, weighed⟩ := of_new made
  have spec (settings : Settings) := new_spec hard soft settings ground (fun c hc => (weighed c hc).1)
    fun c hc => (weighed c hc).2
  obtain ⟨t, made', ready, -⟩ := spec settings
  obtain rfl := Except.ok.inj (made.symm.trans made')
  obtain ⟨s₀, made₀, ready₀, -⟩ := spec settings.untimed
  have same : s₀.numbering = s.numbering := by
    have made₀' := new_withSettings hard soft settings settings.untimed
    rw [made, made₀] at made₀'
    have eq : s₀ = { s with settings := settings.untimed } := Except.ok.inj made₀'
    rw [eq]
  refine ⟨s₀, made₀, fun calls => ?_⟩
  have accepted : s.accepted calls = s₀.accepted calls := by
    rw [accepted_eq ready probable calls fun l => Iff.rfl, accepted_eq ready₀ probable.untimed calls fun l => Iff.rfl,
      same]
  refine ⟨accepted, fun as watch => ?_⟩
  obtain ⟨numbering, ready⟩ := ready.run probable calls
  obtain ⟨numbering₀, ready₀⟩ := ready₀.run probable.untimed calls
  rw [← accepted] at ready₀
  exact bears_of_ready probable clocked ready ready₀ (by rw [numbering, numbering₀, same]) as watch

end Solver

end Defeasible
