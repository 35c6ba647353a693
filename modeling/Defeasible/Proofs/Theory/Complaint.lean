import Defeasible.Proofs.Session
import Defeasible.Theory.Drowning

/-! Complaints that a theory is not ground. No solver complains of that, so a query does if and only if the theory
takes itself to be not ground, whatever the session remembers. -/

namespace Defeasible

def Error.OfSolver : Error → Prop
  | .analysis _ | .engine _ | .fault _ => True
  | _ => False

/-! ### Solvers -/

namespace Search

variable {s : State} {o : Optimizer} {assumptions : List Lit} {deadline : Deadline} {e : Error}

namespace State

theorem ofSolver_resolve {level fuel key unresolved i : Nat} {pivot : Option Atom} {others : Array Lit}
    (failed : (resolve level fuel s key pivot unresolved others i).1 = .error e) : e.OfSolver := by
  induction fuel generalizing s key pivot unresolved others i with
  | zero => cases failed; trivial
  | succ fuel ih =>
    rw [resolve] at failed
    rcases markLits level pivot (s.clauses.getD key #[]).toList s unresolved others with ⟨s₁, n, others⟩
    dsimp only at failed
    split at failed
    · cases failed; trivial
    · split at failed
      · cases failed; trivial
      · split at failed
        · cases failed
        · split at failed
          · cases failed; trivial
          · exact ih failed

theorem ofSolver_analyse {key : Nat} (failed : (s.analyse key).1 = .error e) : e.OfSolver := by
  rw [analyse] at failed
  split at failed
  · cases failed; trivial
  · split at failed
    · next resolved =>
      cases failed
      exact ofSolver_resolve (congrArg Prod.fst resolved)
    · cases failed

theorem ofSolver_pass {s' : State} (failed : pass assumptions deadline s = .inl (.error e, s')) :
    e.OfSolver := by
  rw [pass] at failed
  split at failed
  · dsimp only at failed
    split at failed
    · cases failed
    · split at failed
      · next resolved =>
        cases failed
        rw [resolveConflict] at resolved
        split at resolved
        · next analysed =>
          cases resolved
          exact ofSolver_analyse (congrArg Prod.fst analysed)
        · cases resolved
      · cases failed
  · dsimp only at failed
    split at failed
    · cases failed
    · split at failed <;> cases failed
      trivial

theorem ofSolver_search {fuel : Nat} (failed : (search assumptions deadline fuel s).1 = .error e) :
    e.OfSolver := by
  induction fuel generalizing s with
  | zero => cases failed; trivial
  | succ fuel ih =>
    rw [search] at failed
    rcases passed : pass assumptions deadline s with ⟨result, s'⟩ | s'
    · rw [passed] at failed
      obtain rfl : result = .error e := failed
      exact ofSolver_pass passed
    · rw [passed] at failed
      exact ih failed

theorem ofSolver_solve (failed : (s.solve assumptions deadline).1 = .error e) : e.OfSolver := by
  rw [solve] at failed
  split at failed
  · cases failed
  · exact ofSolver_search failed

end State

theorem Optimizer.ofSolver_branch {atomCount : Nat} {soft rest : List SoftClause} {committed : Nat}
    {best : Option Costed}
    (failed : (branch atomCount soft deadline rest s assumptions committed best).1 = .error e) : e.OfSolver := by
  induction rest generalizing s assumptions committed best with
  | nil =>
    rw [branch] at failed
    split at failed
    · cases failed
    · split at failed
      · next solved =>
        cases failed
        exact State.ofSolver_solve (congrArg Prod.fst solved)
      · cases failed
      · cases failed
      · cases failed
      · dsimp only at failed
        split at failed <;> cases failed
  | cons first rest ih =>
    rw [branch] at failed
    split at failed
    · cases failed
    · split at failed
      · next solved =>
        cases failed
        exact State.ofSolver_solve (congrArg Prod.fst solved)
      · cases failed
      · cases failed
      · cases failed
      · dsimp only at failed
        split at failed
        · cases failed
        · split at failed
          · next held =>
            cases failed
            exact ih (congrArg Prod.fst held)
          · cases failed
          · exact ih failed

theorem Optimizer.ofSolver_optimize (failed : (o.optimize deadline).1 = .error e) : e.OfSolver := by
  rw [optimize] at failed
  split at failed
  · next branched =>
    cases failed
    exact ofSolver_branch (congrArg Prod.fst branched)
  all_goals cases failed

end Search

namespace Solver

variable {solver : Solver} {watch : Stopwatch} {e : Error}

theorem ofSolver_solve (failed : (solver.solve watch).1 = .error e) : e.OfSolver := by
  rw [solve, solveAssuming] at failed
  split at failed
  · cases failed; trivial
  · split at failed
    · cases failed; trivial
    · split at failed
      · cases failed; trivial
      · dsimp only at failed
        split at failed
        · next searched =>
          cases failed
          exact Search.State.ofSolver_solve searched
        all_goals cases failed
        trivial

theorem ofSolver_optimize (failed : (solver.optimize watch).1 = .error e) : e.OfSolver := by
  rw [optimize] at failed
  split at failed
  · cases failed; trivial
  · split at failed
    · cases failed; trivial
    · dsimp only at failed
      split at failed
      · next optimized =>
        cases failed
        exact Search.Optimizer.ofSolver_optimize optimized
      all_goals cases failed

end Solver

/-! ### Queries -/

namespace Query

variable {α β : Type} {q : Query α} {f : α → Query β} {P P' : α → Prop} {Q : β → Prop} {E : Error → Prop}
  {settings : Settings}

def Yields (q : Query α) (P : α → Prop) (E : Error → Prop) : Prop :=
  ∀ s : Session, (∃ a, (q.run s).1 = .ok a ∧ P a) ∨ ∃ e, (q.run s).1 = .error e ∧ E e

namespace Yields

theorem any (q : Query α) : q.Yields (fun _ => True) fun _ => True := by
  intro s
  cases result : (q.run s).1 with
  | ok a => exact .inl ⟨a, rfl, trivial⟩
  | error e => exact .inr ⟨e, rfl, trivial⟩

theorem of_errors (errors : ∀ s e, (q.run s).1 = .error e → E e) : q.Yields (fun _ => True) E := by
  intro s
  cases result : (q.run s).1 with
  | ok a => exact .inl ⟨a, rfl, trivial⟩
  | error e => exact .inr ⟨e, rfl, errors s e result⟩

protected theorem pure {a : α} (h : P a) : (pure a : Query α).Yields P E := fun _ => .inl ⟨a, rfl, h⟩

protected theorem throw {e : Error} (h : E e) : (throw e : Query α).Yields P E := fun _ => .inr ⟨e, rfl, h⟩

protected theorem bind (yields : q.Yields P E) (rest : ∀ a, P a → (f a).Yields Q E) : (q >>= f).Yields Q E := by
  intro s
  have first := yields s
  revert first
  rw [run_bind]
  rcases q.run s with ⟨_ | _, s₁⟩
  · rintro (⟨_, ⟨⟩, _⟩ | ⟨e, same, h⟩)
    exact .inr ⟨e, congrArg _ (Except.error.inj same), h⟩
  · rintro (⟨a, same, h⟩ | ⟨_, ⟨⟩, _⟩)
    exact Except.ok.inj same ▸ rest a h s₁

theorem of_run (yields : q.Yields P E) {s s' : Session} {a : α} (run : q.run s = (.ok a, s')) : P a := by
  rcases yields s with ⟨_, result, h⟩ | ⟨_, result, -⟩
  · rw [run] at result
    cases result
    exact h
  · rw [run] at result
    cases result

end Yields

theorem nextWatch_yields : nextWatch.Yields (fun _ => True) E := fun _ => .inl ⟨_, rfl, trivial⟩

theorem ofExcept_yields {ε : Type} {g : ε → Error} {r : Except ε α} (errors : ∀ e, r = .error e → E (g e)) :
    (ofExcept g r).Yields (fun _ => True) E := by
  cases r with
  | ok a => exact .pure trivial
  | error e => exact .throw (errors e rfl)

theorem solveFresh_yields (settings : Settings) (problem : ClauseSet) :
    (solveFresh settings problem).Yields (fun _ => True) Error.OfSolver := by
  refine (ofExcept_yields fun _ _ => trivial).bind fun solver _ => ?_
  refine nextWatch_yields.bind fun watch _ => ?_
  exact ofExcept_yields fun _ => Solver.ofSolver_solve

theorem remembered_yields {problem : ClauseSet} {compute : Query (Option Witness)}
    (yields : compute.Yields (fun _ => True) E) : (remembered problem compute).Yields (fun _ => True) E := by
  refine .of_errors fun s e failed => ?_
  unfold run remembered at failed
  split at failed
  · cases failed
  · split at failed
    · next computed =>
      cases failed
      rcases yields { s with cache := s.cache.miss } with ⟨_, result, -⟩ | ⟨_, result, h⟩
      · unfold run at result
        rw [computed] at result
        cases result
      · unfold run at result
        rw [computed] at result
        cases result
        exact h
    · cases failed

def Complains (q : Query α) (s : Session) : Prop := (q.run s).1 = .error (.theory .nonGround)

theorem Yields.not_complains (yields : q.Yields P Error.OfSolver) (s : Session) : ¬ q.Complains s := by
  intro complains
  unfold Complains at complains
  rcases yields s with ⟨_, result, -⟩ | ⟨_, result, h⟩
  · rw [complains] at result
    cases result
  · rw [complains] at result
    cases result
    exact h

theorem complains_iff {ground : Bool} (yields : ground = true → q.Yields P Error.OfSolver)
    (throws : ground = false → q = throw (.theory .nonGround)) (s : Session) :
    q.Complains s ↔ ground = false := by
  cases ground with
  | true => exact iff_of_false ((yields rfl).not_complains s) Bool.noConfusion
  | false =>
    rw [throws rfl]
    exact iff_of_true rfl rfl

end Query

namespace Theory

open Query (Yields)

variable {t : Theory} {evidence : Evidence}

theorem solveProblem_yields (t : Theory) (problem : ClauseSet) :
    (t.solveProblem problem).Yields (fun _ => True) Error.OfSolver := by
  unfold solveProblem
  split
  · exact Query.remembered_yields (Query.solveFresh_yields _ _)
  · exact Query.solveFresh_yields _ _

section Ground

variable (ground : t.isGround = true)

include ground

theorem requireGround_eq_pure : t.requireGround = pure () := if_pos ground

theorem solveAt_yields (n : Necessity) (evidence : Evidence) :
    (t.solveAt n evidence).Yields (fun _ => True) Error.OfSolver := by
  rw [solveAt, requireGround_eq_pure ground, pure_bind]
  exact solveProblem_yields t _

theorem searchLevel_yields {weights : Array Necessity} {fuel low high : Nat}
    {best : Option (Witness × Necessity)} :
    (t.searchLevel evidence weights fuel low high best).Yields (fun _ => True) Error.OfSolver := by
  induction fuel generalizing low high best with
  | zero => exact .pure trivial
  | succ fuel ih =>
    rw [searchLevel]
    split
    · refine (solveAt_yields ground _ evidence).bind fun answer _ => ?_
      cases answer <;> exact ih
    · exact .pure trivial

theorem solve_yields (evidence : Evidence) : (t.solve evidence).Yields (fun _ => True) Error.OfSolver := by
  unfold solve
  dsimp only
  split
  · exact (solveAt_yields ground .certain evidence).bind fun _ _ => .pure trivial
  · exact searchLevel_yields ground

theorem implies_yields (evidence : Evidence) (c : Clause) :
    (t.implies evidence c).Yields (fun _ => True) Error.OfSolver := by
  rw [implies]
  split
  · exact .pure trivial
  · rw [requireGround_eq_pure ground, pure_bind]
    refine (solve_yields ground evidence).bind fun answer _ => ?_
    cases answer with
    | none => exact .pure trivial
    | some found => exact (solveProblem_yields t _).bind fun _ _ => .pure trivial

theorem mostPlausible_yields (evidence : Evidence) :
    (t.mostPlausible evidence).Yields (fun _ => True) Error.OfSolver := by
  rw [mostPlausible, requireGround_eq_pure ground, pure_bind]
  refine (Query.ofExcept_yields fun _ _ => trivial).bind fun solver _ => ?_
  refine Query.nextWatch_yields.bind fun watch _ => ?_
  exact Query.ofExcept_yields fun _ => Solver.ofSolver_optimize

theorem withoutDrowned_yields : t.withoutDrowned.Yields (fun _ => True) Error.OfSolver := by
  refine (solve_yields ground ∅).bind fun answer _ => ?_
  cases answer with
  | none => exact .pure trivial
  | some found => exact .pure trivial

end Ground

section NotGround

variable (not_ground : t.isGround = false)

include not_ground

theorem requireGround_eq_throw : t.requireGround = throw (.theory .nonGround) :=
  if_neg (not_ground ▸ Bool.false_ne_true)

theorem solveAt_eq_throw (n : Necessity) (evidence : Evidence) :
    t.solveAt n evidence = throw (.theory .nonGround) := by
  rw [solveAt, requireGround_eq_throw not_ground]
  rfl

theorem solve_eq_throw (evidence : Evidence) : t.solve evidence = throw (.theory .nonGround) := by
  rw [solve]
  split
  · rw [solveAt_eq_throw not_ground]
    rfl
  · next some =>
    have levels : 0 < t.weights.toArray.size := Array.size_pos_iff.2 (by simpa using some)
    obtain ⟨fuel, size⟩ := Nat.exists_eq_succ_of_ne_zero levels.ne'
    rw [size, searchLevel, if_pos fuel.succ_pos]
    dsimp only
    rw [solveAt_eq_throw not_ground]
    rfl

theorem mostPlausible_eq_throw (evidence : Evidence) :
    t.mostPlausible evidence = throw (.theory .nonGround) := by
  rw [mostPlausible, requireGround_eq_throw not_ground]
  rfl

theorem withoutDrowned_eq_throw : t.withoutDrowned = throw (.theory .nonGround) := by
  rw [withoutDrowned, solve_eq_throw not_ground]
  rfl

end NotGround

section Complaints

variable (t) (s : Session)

theorem solveAt_complains (n : Necessity) (evidence : Evidence) :
    (t.solveAt n evidence).Complains s ↔ t.isGround = false :=
  Query.complains_iff (fun ground => solveAt_yields ground n evidence)
    (fun not_ground => solveAt_eq_throw not_ground n evidence) s

theorem solve_complains (evidence : Evidence) : (t.solve evidence).Complains s ↔ t.isGround = false :=
  Query.complains_iff (fun ground => solve_yields ground evidence)
    (fun not_ground => solve_eq_throw not_ground evidence) s

theorem implies_complains (evidence : Evidence) (c : Clause) :
    (t.implies evidence c).Complains s ↔ c.isTautology = false ∧ t.isGround = false := by
  cases tautology : c.isTautology with
  | true =>
    have implied : t.implies evidence c = pure true := if_pos tautology
    rw [implied]
    exact iff_of_false nofun fun h => Bool.noConfusion h.1
  | false =>
    rw [and_iff_right rfl]
    refine Query.complains_iff (fun ground => implies_yields ground evidence c) (fun not_ground => ?_) s
    rw [implies, if_neg (tautology ▸ Bool.false_ne_true), requireGround_eq_throw not_ground]
    rfl

theorem mostPlausible_complains (evidence : Evidence) :
    (t.mostPlausible evidence).Complains s ↔ t.isGround = false :=
  Query.complains_iff (fun ground => mostPlausible_yields ground evidence)
    (fun not_ground => mostPlausible_eq_throw not_ground evidence) s

theorem withoutDrowned_complains : t.withoutDrowned.Complains s ↔ t.isGround = false :=
  Query.complains_iff withoutDrowned_yields withoutDrowned_eq_throw s

end Complaints

end Theory

end Defeasible
