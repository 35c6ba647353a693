import Defeasible.Proofs.Theory.Dialogue

/-! What is left of queries that ran out of time. Answers that a query had before are right and stay remembered, and the
problem at which it was stopped is not remembered. -/

namespace Defeasible

namespace Theory

variable {t : Theory} {s s' : Session} {problem : ClauseSet} {log : List (ClauseSet × Option Witness)}

inductive Answered (t : Theory) : Session → List (ClauseSet × Option Witness) → Session → Prop
  | nil (s : Session) : Answered t s [] s
  | cons {s s₁ s' : Session} {problem : ClauseSet} {answer : Option Witness}
    {log : List (ClauseSet × Option Witness)} (asked : (t.solveProblem problem).run s = (.ok answer, s₁))
    (rest : Answered t s₁ log s') : Answered t s ((problem, answer) :: log) s'

/-- A theory has so many answers before it runs out of time at a problem. -/
structure Stopped (t : Theory) (s : Session) (log : List (ClauseSet × Option Witness)) (problem : ClauseSet)
    (s' : Session) : Prop where
  answered : ∃ s₁, t.Answered s log s₁ ∧ (t.solveProblem problem).run s₁ = (.error (.engine .timeUp), s')
  right : ∀ e ∈ log, Settles e.1.toList [] e.2
  entries : ∀ e ∈ s'.cache.entries, e ∈ s.cache.entries ∨ e ∈ log
  unknown : t.cached = true → s'.cache.find? problem = none

theorem mem_entries_of_answer {answer : Option Witness} (asked : (t.solveProblem problem).run s = (.ok answer, s')) :
    ∀ e ∈ s'.cache.entries, e ∈ s.cache.entries ∨ e = (problem, answer) := by
  unfold solveProblem at asked
  split at asked
  · exact (Query.put_remembered asked).mem_entries
  · have kept := Query.cache_solveFresh t.settings problem s
    rw [asked] at kept
    exact fun e he => .inl (kept ▸ he)

theorem unknown_of_error {e : Error} (cached : t.cached = true)
    (asked : (t.solveProblem problem).run s = (.error e, s')) : s'.cache.find? problem = none := by
  unfold solveProblem at asked
  rw [if_pos cached] at asked
  exact (Query.put_remembered asked).unknown_of_error

namespace Answered

theorem mem_entries (answered : t.Answered s log s') :
    ∀ e ∈ s'.cache.entries, e ∈ s.cache.entries ∨ e ∈ log := by
  induction answered with
  | nil s => exact fun e he => .inl he
  | cons asked rest ih =>
    intro e he
    rcases ih e he with before | later
    · rcases mem_entries_of_answer asked e before with old | rfl
      · exact .inl old
      · exact .inr List.mem_cons_self
    · exact .inr (List.mem_cons_of_mem _ later)

theorem settles (answered : t.Answered s log s') (probable : t.settings.Probable) (sound : s.Sound) :
    ∀ e ∈ log, Settles e.1.toList [] e.2 := by
  induction answered with
  | nil s => exact nofun
  | @cons s s₁ s' problem answer log asked rest ih =>
    have outcome := @solveProblem_outcome t probable problem s sound
    rw [asked] at outcome
    cases outcome with
    | answer sound₁ _ settles => exact List.forall_mem_cons.2 ⟨settles, ih sound₁⟩

theorem of_dialogue {α : Type} {d : Dialogue α} (patient : d.Patient False)
    (run : (d.query t.solveProblem).run s = (.error (.engine .timeUp), s')) :
    ∃ log problem s₁, t.Answered s log s₁ ∧
      (t.solveProblem problem).run s₁ = (.error (.engine .timeUp), s') := by
  induction d generalizing s with
  | ends result =>
    rw [Dialogue.run_ends] at run
    exact absurd (congrArg Prod.fst run) patient
  | counts => exact patient.1.elim
  | asks problem next ih =>
    rcases asked : (t.solveProblem problem).run s with ⟨result, s₁⟩
    rw [Dialogue.run_asks asked] at run
    cases result with
    | ok answer =>
      obtain ⟨log, problem', s₂, answered, stopped⟩ := ih answer (patient answer) run
      exact ⟨(problem, answer) :: log, problem', s₂, .cons asked answered, stopped⟩
    | error e =>
      cases run
      exact ⟨[], problem, s, .nil s, asked⟩

end Answered

end Theory

/-! ### Answers with a limit -/

structure Query.Bears {α β : Type} (q : Query α) (q₀ : Query β) (R : α → β → Prop) (t : Theory) : Prop where
  tracks : q.Tracks q₀ R (· = .engine .timeUp)
  stops : ∀ s s' : Session, s.Sound → q.run s = (.error (.engine .timeUp), s') →
    ∃ log problem, t.Stopped s log problem s'

theorem Query.Stepwise.bears {α β : Type} {q : Query α} {q₀ : Query β} {R : α → β → Prop} {t : Theory}
    (stepwise : q.Stepwise t.solveProblem False) (probable : t.settings.Probable) (clocked : t.settings.Clocked)
    (tracks : q.Tracks q₀ R t.settings.CutsShort) : q.Bears q₀ R t := by
  refine ⟨tracks.imp_error fun _ => clocked.eq_timeUp, fun s s' sound run => ?_⟩
  obtain ⟨d, rfl, patient⟩ := stepwise
  obtain ⟨log, problem, s₁, answered, stopped⟩ := Theory.Answered.of_dialogue patient run
  refine ⟨log, problem, ⟨s₁, answered, stopped⟩, answered.settles probable sound, ?_,
    fun cached => Theory.unknown_of_error cached stopped⟩
  rw [Theory.entries_solveProblem_of_error stopped]
  exact answered.mem_entries

structure Theory.Bears (t : Theory) : Prop where
  solve : ∀ evidence, (t.solve evidence).Bears (t.untimed.solve evidence)
    (fun a b => a.map Prod.snd = b.map Prod.snd) t
  implies : ∀ evidence c, (t.implies evidence c).Bears (t.untimed.implies evidence c) Eq t
  withoutImplied : t.withoutImplied.Bears t.untimed.withoutImplied
    (fun u u₀ => u₀ = u.withSettings t.settings.untimed) t
  simplifyBySat : t.simplifyBySat.Bears t.untimed.simplifyBySat
    (fun u u₀ => u₀ = u.withSettings t.settings.untimed) t

/-- A limit on solves never changes an answer. Any looks at the time are those of some clock, and whatever they say,
a solve is ended or does what it would do without a limit, after any others that were ended. Of a query that was ended
only answers are remembered that it had before, and they are right. -/
theorem limit_keeps_answers (settings : Settings) (probable : settings.Probable) (clocked : settings.Clocked) :
    (settings.solveLimit? ≠ none → ∀ deadline,
      ∃ watch : Stopwatch, watch.deadline settings.solveLimit? = .ok deadline) ∧
    (∀ ops, (Search.State.new settings).Legal ops → ∀ assumptions,
      (∀ a ∈ assumptions, ((Search.State.new settings).run ops).HasAtom a.atom) → ∀ deadline,
        ((Search.State.new settings).run ops).Bears (Search.added ops) assumptions deadline) ∧
    (∀ hard soft solver, Solver.new hard soft settings = .ok solver →
      ∃ solver₀, Solver.new hard soft settings.untimed = .ok solver₀ ∧
        ∀ calls, solver.accepted calls = solver₀.accepted calls ∧ ∀ as watch,
          Solver.Bears settings (hard ++ solver.accepted calls) soft (solver.run calls) (solver₀.run calls) as
            watch) ∧
    (∀ rules, (ranking settings rules).Tracks (ranking settings.untimed rules) Eq (· = .engine .timeUp)) ∧
    ∀ t : Theory, t.settings = settings → t.Bears := by
  refine ⟨fun limited deadline => ?_, fun ops legal assumptions known deadline => ?_,
    fun hard soft solver made => ?_, fun rules => ?_, ?_⟩
  · obtain ⟨limit, limited⟩ := Option.ne_none_iff_exists'.1 limited
    rw [limited]
    exact Stopwatch.exists_deadline (clocked.solve limit limited) deadline
  · exact Search.State.bears_of_legal probable legal known deadline
  · exact Solver.bears_of_calls probable clocked made
  · exact (ranking_tracks probable rules).imp_error fun _ => clocked.eq_timeUp
  · rintro t rfl
    refine ⟨fun evidence => ?_, fun evidence c => ?_, ?_, ?_⟩
    · exact (Theory.solve_stepwise t evidence).bears probable clocked (Theory.solve_tracks probable evidence)
    · exact (Theory.implies_stepwise t evidence c).bears probable clocked (Theory.implies_tracks probable evidence c)
    · exact (Theory.withoutImplied_stepwise t).bears probable clocked (Theory.withoutImplied_tracks probable)
    · exact (Theory.simplifyBySat_stepwise t).bears probable clocked (Theory.simplifyBySat_tracks probable)

def Settings.hurried : Settings := { timeLimit := { ({} : Settings).timeLimit with value := 1 } }

def Theory.hurriedPenguins : Theory := (penguins.withSettings .hurried).withCache

theorem limit_keeps_answers_penguins : ∃ s s' s₀ w w₀ log problem,
    (Theory.hurriedPenguins.solve (.singleton ⟨"penguin", [], true⟩)).run { watches := fun _ _ => 2 } =
      (.error (.engine .timeUp), s) ∧ Theory.hurriedPenguins.Stopped { watches := fun _ _ => 2 } log problem s ∧
    (Theory.hurriedPenguins.solve (.singleton ⟨"penguin", [], true⟩)).run { watches := fun _ _ => 1 } =
      (.ok (some (w, .ofLevel 1 2)), s') ∧
    (Theory.hurriedPenguins.untimed.solve (.singleton ⟨"penguin", [], true⟩)).run { watches := fun _ _ => 2 } =
      (.ok (some (w₀, .ofLevel 1 2)), s₀) := by
  have clocked : Settings.hurried.Clocked := by
    constructor
    · rintro _ ⟨⟩
      decide +kernel
    · exact nofun
  have probable : Settings.hurried.Probable := Settings.probable_of_phaseSaving rfl (by decide +kernel)
  have bears := (limit_keeps_answers .hurried probable clocked).2.2.2.2 Theory.hurriedPenguins rfl
  have stopped : ((Theory.hurriedPenguins.solve (.singleton ⟨"penguin", [], true⟩)).run
      { watches := fun _ _ => 2 }).1 = .error (.engine .timeUp) := by decide +kernel
  have found : ((Theory.hurriedPenguins.solve (.singleton ⟨"penguin", [], true⟩)).run
      { watches := fun _ _ => 1 }).1 =
      .ok (some (.ofList [⟨"bird", [], true⟩, ⟨"penguin", [], true⟩], .ofLevel 1 2)) := by decide +kernel
  have stops := (bears.solve (.singleton ⟨"penguin", [], true⟩)).stops { watches := fun _ _ => 2 }
  have beside := (bears.solve (.singleton ⟨"penguin", [], true⟩)).tracks { watches := fun _ _ => 1 }
    { watches := fun _ _ => 2 } (Session.sound_new _) (Session.sound_new _)
  revert stopped found stops beside
  rcases (Theory.hurriedPenguins.solve (.singleton ⟨"penguin", [], true⟩)).run
    { watches := fun _ _ => 2 } with ⟨r, s⟩
  rcases (Theory.hurriedPenguins.solve (.singleton ⟨"penguin", [], true⟩)).run
    { watches := fun _ _ => 1 } with ⟨r', s'⟩
  rcases (Theory.hurriedPenguins.untimed.solve (.singleton ⟨"penguin", [], true⟩)).run
    { watches := fun _ _ => 2 } with ⟨r₀, s₀⟩
  rintro rfl rfl stops beside
  obtain ⟨log, problem, stopped⟩ := stops s (Session.sound_new _) rfl
  cases beside with
  | @ok _ answer₀ _ _ _ _ related =>
    obtain ⟨⟨w₀, n⟩, rfl, rfl⟩ := Option.map_eq_some_iff.1 related.symm
    exact ⟨s, s', s₀, _, w₀, log, problem, rfl, stopped, rfl, rfl⟩

/-- The first of two problems needs no look at the time, so that its answer is left when the second is stopped. -/
theorem stopped_leaves_answer : ∃ problem s,
    (Theory.hurriedPenguins.solve (.singleton ⟨"penguin", [], true⟩)).run { watches := fun _ _ => 2 } =
      (.error (.engine .timeUp), s) ∧ s.cache.entries = [(problem, none)] := by
  have stopped : ((Theory.hurriedPenguins.solve (.singleton ⟨"penguin", [], true⟩)).run
      { watches := fun _ _ => 2 }).1 = .error (.engine .timeUp) := by decide +kernel
  exact ⟨Theory.hurriedPenguins.cut (.ofLevel 0 2) ∪ Theory.units [⟨"penguin", [], true⟩], _, Prod.ext stopped rfl,
    by decide +kernel⟩

def Settings.unhurried : Settings :=
  { timeLimit := { ({} : Settings).timeLimit with value := UInt64.size * 1000000000 - 1 } }

/-- The limit may be set beyond the times of all clocks, and then no solve is made. -/
theorem unhurried_faults :
    ({} : Settings).update { timeLimit := some (UInt64.size * 1000000000 - 1) } = .ok .unhurried ∧
    ((ranking .unhurried birds).run {}).1 = .error (.fault .overflow) ∧
    ((ranking Settings.unhurried.untimed birds).run {}).1.toOption.isSome = true :=
  ⟨rfl, by decide +kernel, by decide +kernel⟩

end Defeasible
