import Mathlib.Tactic.Choose
import Defeasible.Proofs.Counting.Enumeration
import Defeasible.Proofs.Theory.TimeLimit
import Defeasible.Theory.Collapse
import Defeasible.Theory.Drowning

/-! Queries as dialogues: they put one problem after the other and go on from each answer. Nothing that they do in
between touches the session, so between two problems of one query there may be problems of others. -/

namespace Defeasible

namespace Query

variable {α : Type} {q : Query α} {C : Error → Prop}

/-- Whether a query does the same in all sessions, and leaves what is remembered as it is. -/
def Steady (q : Query α) : Prop :=
  ∃ r : Except Error α, ∀ s : Session, ∃ s', q.run s = (r, s') ∧ s'.cache = s.cache

theorem Steady.again {r : Except Error α} {s s' : Session} (steady : q.Steady) (run : q.run s = (r, s'))
    (s₁ : Session) : ∃ s₁', q.run s₁ = (r, s₁') ∧ s₁'.cache = s₁.cache := by
  obtain ⟨_, same⟩ := steady
  obtain ⟨_, first, -⟩ := same s
  rw [run] at first
  cases first
  exact same s₁

theorem Steady.cache_eq {r : Except Error α} {s s' : Session} (steady : q.Steady) (run : q.run s = (r, s')) :
    s'.cache = s.cache := by
  obtain ⟨_, run', kept⟩ := steady.again run s
  rw [run] at run'
  cases run'
  exact kept

theorem Steady.tracks (steady : q.Steady) : q.Tracks q Eq C := by
  obtain ⟨r, same⟩ := steady
  intro s s₀ sound sound₀
  obtain ⟨s', run, kept⟩ := same s
  obtain ⟨s₀', run₀, kept₀⟩ := same s₀
  have left : s'.Sound := sound.of_entries (congrArg AnswerCache.entries kept)
  have left₀ : s₀'.Sound := sound₀.of_entries (congrArg AnswerCache.entries kept₀)
  rw [run, run₀]
  cases r with
  | ok a => exact .ok left left₀ rfl
  | error e => exact .error left left₀

end Query

namespace Counter

def Steady (count : Counter) : Prop := ∀ clauses, Query.Steady (count clauses)

theorem steady_none : ∀ count ∈ (none : Option Counter), count.Steady := nofun

theorem Steady.some {count : Counter} (steady : count.Steady) : ∀ count' ∈ some count, count'.Steady := by
  rintro _ ⟨⟩
  exact steady

theorem enumeration_steady {settings : Settings} (probable : settings.Probable)
    (untimed : settings.solveLimit? = none) : (enumeration settings).Steady := by
  intro clauses
  by_cases ground : ∀ c ∈ clauses, c.isGround = true
  · refine ⟨.ok (modelCount clauses), fun s => ?_⟩
    obtain ⟨s', kept, ⟨_, run, rfl⟩ | ⟨_, _, cut⟩⟩ := enumeration_attains probable ground s
    · exact ⟨s', run, kept⟩
    · exact absurd untimed cut.hinders.limited
  · cases made : Solver.new clauses [] settings with
    | ok solver => exact absurd (Solver.of_new made).1 ground
    | error e =>
      unfold enumeration
      rw [made]
      exact ⟨.error (.engine e), fun s => ⟨s, rfl, rfl⟩⟩

end Counter

/-- What is left of a query: its result, or the next problem or count with what follows each answer. -/
inductive Dialogue (α : Type)
  | ends (result : Except Error α)
  | asks (problem : ClauseSet) (next : Option Witness → Dialogue α)
  | counts (count : Query Nat) (steady : count.Steady) (next : Nat → Dialogue α)

namespace Dialogue

variable {α β : Type} {solve : ClauseSet → Query (Option Witness)}

def query (solve : ClauseSet → Query (Option Witness)) : Dialogue α → Query α
  | ends result => Query.ofExcept id result
  | asks problem next => solve problem >>= fun answer => (next answer).query solve
  | counts count _ next => count >>= fun n => (next n).query solve

def resume (next : α → Dialogue β) : Except Error α → Dialogue β
  | .ok a => next a
  | .error e => ends (.error e)

def bind (d : Dialogue α) (f : α → Dialogue β) : Dialogue β :=
  match d with
  | ends result => resume f result
  | asks problem next => asks problem fun answer => (next answer).bind f
  | counts count steady next => counts count steady fun n => (next n).bind f

theorem query_bind (d : Dialogue α) (f : α → Dialogue β) :
    (d.bind f).query solve = d.query solve >>= fun a => (f a).query solve := by
  induction d with
  | ends result =>
    cases result with
    | ok a => exact (pure_bind _ _).symm
    | error e => rfl
  | asks problem next ih =>
    rw [bind, query, query, bind_assoc]
    exact congrArg _ (funext ih)
  | counts count steady next ih =>
    rw [bind, query, query, bind_assoc]
    exact congrArg _ (funext ih)

section Run

variable {s s' : Session}

theorem run_asks {problem : ClauseSet} {next : Option Witness → Dialogue α} {result : Except Error (Option Witness)}
    (run : (solve problem).run s = (result, s')) :
    ((asks problem next).query solve).run s = ((resume next result).query solve).run s' := by
  rw [query, Query.run_bind, run]
  cases result with
  | ok answer => rfl
  | error e => rfl

theorem run_counts {count : Query Nat} {steady : count.Steady} {next : Nat → Dialogue α} {result : Except Error Nat}
    (run : count.run s = (result, s')) :
    ((counts count steady next).query solve).run s = ((resume next result).query solve).run s' := by
  rw [query, Query.run_bind, run]
  cases result with
  | ok n => rfl
  | error e => rfl

theorem run_ends (result : Except Error α) (s : Session) : ((ends result).query solve).run s = (result, s) := by
  cases result with
  | ok a => rfl
  | error e => rfl

end Run

/-- Whether a dialogue leaves it to its problems to run out of time. It has counts to make only if this is granted. -/
def Patient (counting : Prop) : Dialogue α → Prop
  | ends result => result ≠ .error (.engine .timeUp)
  | asks _ next => ∀ answer, (next answer).Patient counting
  | counts _ _ next => counting ∧ ∀ n, (next n).Patient counting

theorem Patient.bind {counting : Prop} {d : Dialogue α} {f : α → Dialogue β} (patient : d.Patient counting)
    (rest : ∀ a, (f a).Patient counting) : (d.bind f).Patient counting := by
  induction d with
  | ends result =>
    cases result with
    | ok a => exact rest a
    | error e => exact fun same => patient (congrArg Except.error (Except.error.inj same))
  | asks problem next ih => exact fun answer => ih answer (patient answer)
  | counts count steady next ih => exact ⟨patient.1, fun n => ih n (patient.2 n)⟩

inductive Later : Dialogue α → Dialogue α → Prop
  | asks (problem : ClauseSet) (next : Option Witness → Dialogue α) (result : Except Error (Option Witness)) :
    Later (resume next result) (asks problem next)
  | counts (count : Query Nat) (steady : count.Steady) (next : Nat → Dialogue α) (result : Except Error Nat) :
    Later (resume next result) (counts count steady next)

theorem acc_ends (result : Except Error α) : Acc Later (ends result) := .intro _ nofun

theorem acc_resume {next : β → Dialogue α} (acc : ∀ b, Acc Later (next b)) (result : Except Error β) :
    Acc Later (resume next result) := by
  cases result with
  | ok b => exact acc b
  | error e => exact acc_ends _

theorem acc_later (d : Dialogue α) : Acc Later d := by
  induction d with
  | ends result => exact acc_ends result
  | asks problem next ih =>
    refine .intro _ fun d later => ?_
    cases later with
    | asks _ _ result => exact acc_resume ih result
  | counts count steady next ih =>
    refine .intro _ fun d later => ?_
    cases later with
    | counts _ _ _ result => exact acc_resume ih result

end Dialogue

namespace Query

variable {α β : Type} {q : Query α} {f : α → Query β} {solve : ClauseSet → Query (Option Witness)} {counting : Prop}

/-- Whether a query is a dialogue, for some way to solve problems. It may have counts to make as well. -/
def Stepwise (q : Query α) (solve : ClauseSet → Query (Option Witness)) (counting : Prop) : Prop :=
  ∃ d : Dialogue α, d.query solve = q ∧ d.Patient counting

namespace Stepwise

protected theorem pure (a : α) : (pure a : Query α).Stepwise solve counting := ⟨.ends (.ok a), rfl, nofun⟩

protected theorem throw {e : Error} (patient : e ≠ .engine .timeUp) :
    (throw e : Query α).Stepwise solve counting :=
  ⟨.ends (.error e), rfl, fun same => patient (Except.error.inj same)⟩

protected theorem bind (first : q.Stepwise solve counting) (rest : ∀ a, (f a).Stepwise solve counting) :
    (q >>= f).Stepwise solve counting := by
  obtain ⟨d, rfl, patient⟩ := first
  choose next same patient' using rest
  refine ⟨d.bind next, ?_, patient.bind patient'⟩
  rw [Dialogue.query_bind, funext same]

theorem asks (problem : ClauseSet) : (solve problem).Stepwise solve counting :=
  ⟨.asks problem fun answer => .ends (.ok answer), bind_pure _, fun _ => nofun⟩

theorem counts {count : Query Nat} (steady : count.Steady) (may : counting) : count.Stepwise solve counting :=
  ⟨.counts count steady fun n => .ends (.ok n), bind_pure _, may, fun _ => nofun⟩

theorem ofExcept {ε : Type} {g : ε → Error} (patient : ∀ e, g e ≠ .engine .timeUp) (r : Except ε α) :
    (ofExcept g r).Stepwise solve counting := by
  cases r with
  | ok a => exact .pure a
  | error e => exact .throw (patient e)

theorem mapM {f : α → Query β} (each : ∀ a, (f a).Stepwise solve counting) (as : List α) :
    (as.mapM f).Stepwise solve counting := by
  induction as with
  | nil => exact .pure []
  | cons a as ih =>
    rw [List.mapM_cons]
    exact (each a).bind fun b => ih.bind fun bs => .pure (b :: bs)

theorem foldlM {f : β → α → Query β} (each : ∀ b a, (f b a).Stepwise solve counting) (as : List α) (b : β) :
    (as.foldlM f b).Stepwise solve counting := by
  induction as generalizing b with
  | nil => exact .pure b
  | cons a as ih =>
    rw [List.foldlM_cons]
    exact (each b a).bind ih

end Stepwise

end Query

/-! ### Queries of theories -/

namespace Theory

open Query (Stepwise)

variable {solve : ClauseSet → Query (Option Witness)} {counter : Option Counter} {counting : Prop}

theorem requireGround_stepwise (t : Theory) : t.requireGround.Stepwise solve counting := by
  unfold requireGround
  split
  · exact .pure ()
  · exact .throw nofun

theorem solveAt_stepwise (t : Theory) (n : Necessity) (evidence : Evidence) :
    (t.solveAt n evidence).Stepwise t.solveProblem counting :=
  (requireGround_stepwise t).bind fun _ => .asks _

theorem searchLevel_stepwise (t : Theory) (evidence : Evidence) (weights : Array Necessity) (fuel low high : Nat)
    (best : Option (Witness × Necessity)) :
    (t.searchLevel evidence weights fuel low high best).Stepwise t.solveProblem counting := by
  induction fuel generalizing low high best with
  | zero => exact .pure best
  | succ fuel ih =>
    rw [searchLevel]
    split
    · refine (solveAt_stepwise t _ evidence).bind fun answer => ?_
      cases answer with
      | none => exact ih _ _ best
      | some witness => exact ih _ _ _
    · exact .pure best

theorem solve_stepwise (t : Theory) (evidence : Evidence) : (t.solve evidence).Stepwise t.solveProblem counting := by
  unfold Theory.solve
  dsimp only
  split
  · exact (solveAt_stepwise t .certain evidence).bind fun _ => .pure _
  · exact searchLevel_stepwise t evidence _ _ _ _ _

theorem isNone_stepwise (t : Theory) (problem : ClauseSet) :
    (Option.isNone <$> t.solveProblem problem).Stepwise t.solveProblem counting := by
  rw [← bind_pure_comp]
  exact (Stepwise.asks problem).bind fun _ => .pure _

theorem implies_stepwise (t : Theory) (evidence : Evidence) (c : Clause) :
    (t.implies evidence c).Stepwise t.solveProblem counting := by
  unfold implies
  split
  · exact .pure true
  · refine (requireGround_stepwise t).bind fun _ => (solve_stepwise t evidence).bind fun found => ?_
    cases found with
    | none => exact .pure false
    | some found => exact isNone_stepwise t _

theorem withoutDrowned_stepwise (t : Theory) : t.withoutDrowned.Stepwise t.solveProblem counting := by
  refine (solve_stepwise t ∅).bind fun found => ?_
  cases found with
  | none => exact .pure _
  | some found => exact .pure _

theorem follows_stepwise (t : Theory) (c : Clause) (clauses strictCut : ClauseSet) :
    (t.follows c clauses strictCut).Stepwise t.solveProblem counting :=
  isNone_stepwise t _

theorem keepUnimplied_stepwise (t : Theory) (strictCut : ClauseSet) (cs : List Clause) (level : ClauseSet) :
    (t.keepUnimplied strictCut cs level).Stepwise t.solveProblem counting := by
  induction cs generalizing level with
  | nil => exact .pure []
  | cons c cs ih =>
    rw [keepUnimplied]
    refine (follows_stepwise t c (level.erase c) strictCut).bind fun implied => ?_
    split
    · exact ih _
    · exact (ih level).bind fun kept => .pure (c :: kept)

theorem withoutImplied_stepwise (t : Theory) : t.withoutImplied.Stepwise t.solveProblem counting := by
  refine Stepwise.bind (.mapM (fun l => ?_) _) fun levels => .pure _
  exact (keepUnimplied_stepwise t _ _ _).bind fun _ => .pure _

theorem shorter?_stepwise (t : Theory) (strictCut level : ClauseSet) (c : Clause) (ls : List Literal) :
    (t.shorter? strictCut level c ls).Stepwise t.solveProblem counting := by
  induction ls with
  | nil => exact .pure none
  | cons l ls ih =>
    rw [shorter?]
    refine (follows_stepwise t (c.without l) level strictCut).bind fun implied => ?_
    split
    · exact .pure _
    · exact ih

theorem shorten_stepwise (t : Theory) (strictCut : ClauseSet) (fuel : Nat) (c : Clause) (level : ClauseSet) :
    (t.shorten strictCut fuel c level).Stepwise t.solveProblem counting := by
  induction fuel generalizing c level with
  | zero => exact .pure level
  | succ fuel ih =>
    rw [shorten]
    split
    · exact .pure level
    · refine (shorter?_stepwise t strictCut level c c.toList).bind fun found => ?_
      cases found with
      | none => exact .pure level
      | some shorter => exact ih shorter _

theorem simplifyBySat_stepwise (t : Theory) : t.simplifyBySat.Stepwise t.solveProblem counting := by
  refine Stepwise.bind (.mapM (fun l => ?_) _) fun levels => .pure _
  exact Stepwise.bind (.foldlM (fun level c => shorten_stepwise t _ _ c level) _ _) fun _ => .pure _

theorem mergedLevel_stepwise (t : Theory) (clauses : ClauseSet) :
    (t.mergedLevel clauses).Stepwise t.solveProblem counting := by
  -- The theory without implied clauses solves as this one, as do all that have only their levels from others.
  unfold mergedLevel withoutImplied
  rw [bind_assoc]
  refine Stepwise.bind (.mapM (fun l => ?_) _) fun levels => ?_
  · exact (keepUnimplied_stepwise (t.withLevels _) _ _ _).bind fun _ => .pure _
  · rw [pure_bind]
    exact (simplifyBySat_stepwise (t.withLevels levels)).bind fun _ => .pure _

theorem cutCounts_stepwise {count : Counter} (steady : count.Steady) (may : counting) (t : Theory) :
    (t.cutCounts count).Stepwise solve counting :=
  .mapM (fun _ => (Stepwise.counts (steady _) may).bind fun _ => .pure _) _

theorem mergedWeights_stepwise (steady : ∀ count ∈ counter, count.Steady) (may : counter ≠ none → counting)
    (t : Theory) (second top : ClauseSet) (weights : List Necessity) :
    (t.mergedWeights counter second top weights).Stepwise solve counting := by
  cases counter with
  | none => exact .pure _
  | some count =>
    unfold mergedWeights
    dsimp only
    split
    · refine Stepwise.bind ?_ fun n => .pure _
      exact (cutCounts_stepwise (steady count rfl) (may nofun) _).bind fun counts => .ofExcept nofun _
    · exact .pure none

theorem collapseUpTo_stepwise (steady : ∀ count ∈ counter, count.Steady) (may : counter ≠ none → counting)
    (maxLiterals fuel : Nat) (t : Theory) (weights : List Necessity) :
    (collapseUpTo maxLiterals counter fuel t weights).Stepwise t.solveProblem counting := by
  induction fuel generalizing t weights with
  | zero => exact .pure t
  | succ fuel ih =>
    rw [collapseUpTo]
    split
    · exact .pure t
    · split
      · refine (mergedLevel_stepwise t _).bind fun merged => ?_
        refine (mergedWeights_stepwise steady may t _ _ weights).bind fun weights' => ?_
        cases weights' with
        | none => exact .pure t
        | some weights' => exact ih (t.withLevels _) weights'
      · exact .pure t

end Theory

end Defeasible
