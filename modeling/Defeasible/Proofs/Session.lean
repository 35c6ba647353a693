import Defeasible.Proofs.Ground.Solver
import Defeasible.Session

/-! What queries find out, in any session whose remembered answers are right, and that they only remember
right answers. -/

namespace Defeasible

def Session.Truthful (s : Session) : Prop := ∀ e ∈ s.cache.entries, Settles e.1.toList [] e.2

theorem Session.truthful_new (watches : Nat → Stopwatch) : ({ watches } : Session).Truthful :=
  fun _ h => absurd h List.not_mem_nil

namespace Query

variable {α β : Type} {q q' : Query α} {f f' : α → Query β} {P P' : α → Prop} {Q : β → Prop}
  {E E' : Error → Prop} {settings : Settings}

/-- From right answers a query comes to a result of one kind or to an error of another, and leaves the
answers right. -/
def Meets (q : Query α) (P : α → Prop) (E : Error → Prop) : Prop :=
  ∀ s : Session, s.Truthful →
    (∃ a s', q.run s = (.ok a, s') ∧ s'.Truthful ∧ P a) ∨
      ∃ e s', q.run s = (.error e, s') ∧ s'.Truthful ∧ E e

theorem run_bind (q : Query α) (f : α → Query β) (s : Session) :
    (q >>= f).run s = match q.run s with
      | (.ok a, s) => (f a).run s
      | (.error e, s) => (.error e, s) := by
  unfold run
  simp only [bind, ExceptT.bind, ExceptT.mk, StateT.bind]
  rcases q s with ⟨_ | _, _⟩ <;> rfl

theorem of_run_bind {s s' : Session} {b : β} (run : (q >>= f).run s = (.ok b, s')) :
    ∃ a s₁, q.run s = (.ok a, s₁) ∧ (f a).run s₁ = (.ok b, s') := by
  rw [run_bind] at run
  rcases first : q.run s with ⟨_ | a, s₁⟩
  · rw [first] at run
    cases run
  · rw [first] at run
    exact ⟨a, s₁, rfl, run⟩

theorem ofExcept_ok {ε : Type} (g : ε → Error) (a : α) : ofExcept g (.ok a) = pure a := rfl

namespace Meets

theorem imp (meets : q.Meets P E) (imp : ∀ a, P a → P' a) : q.Meets P' E := by
  intro s truthful
  rcases meets s truthful with ⟨a, s', run, truthful, h⟩ | failed
  · exact .inl ⟨a, s', run, truthful, imp a h⟩
  · exact .inr failed

theorem imp_error (meets : q.Meets P E) (imp : ∀ e, E e → E' e) : q.Meets P E' := by
  intro s truthful
  rcases meets s truthful with found | ⟨e, s', run, truthful, h⟩
  · exact .inl found
  · exact .inr ⟨e, s', run, truthful, imp e h⟩

protected theorem pure {a : α} (h : P a) : (pure a : Query α).Meets P E :=
  fun s truthful => .inl ⟨a, s, rfl, truthful, h⟩

protected theorem throw {e : Error} (h : E e) : (throw e : Query α).Meets P E :=
  fun s truthful => .inr ⟨e, s, rfl, truthful, h⟩

protected theorem bind (meets : q.Meets P E) (rest : ∀ a, P a → (f a).Meets Q E) : (q >>= f).Meets Q E := by
  intro s truthful
  rw [run_bind]
  rcases meets s truthful with ⟨a, s', run, truthful, h⟩ | ⟨e, s', run, truthful, h⟩
  · rw [run]
    exact rest a h s' truthful
  · rw [run]
    exact .inr ⟨e, s', rfl, truthful, h⟩

theorem unhindered (meets : q.Meets P settings.Hinders) (untimed : settings.solveLimit? = none) :
    q.Meets P E :=
  meets.imp_error fun _ hinders => absurd untimed hinders.limited

theorem result (meets : q.Meets P fun _ => False) {s : Session} (truthful : s.Truthful) :
    ∃ a s', q.run s = (.ok a, s') ∧ s'.Truthful ∧ P a := by
  rcases meets s truthful with found | ⟨e, s', run, truthful, ⟨⟩⟩
  exact found

theorem mapM {f : α → Query (List β)} {R : α → β → Prop} {as : List α}
    (each : ∀ a ∈ as, (f a).Meets (fun bs => ∀ b, b ∈ bs ↔ R a b) E) :
    (as.mapM f).Meets (fun found => found.length = as.length ∧ ∀ b, b ∈ found.flatten ↔ ∃ a ∈ as, R a b)
      E := by
  induction as with
  | nil => exact .pure ⟨rfl, fun b => by simp⟩
  | cons a as ih =>
    rw [List.mapM_cons]
    refine (each a List.mem_cons_self).bind fun bs mem => ?_
    refine (ih fun c hc => each c (List.mem_cons_of_mem a hc)).bind fun rest found => .pure ?_
    refine ⟨congrArg Nat.succ found.1, fun b => ?_⟩
    rw [List.flatten_cons, List.mem_append, mem, found.2, List.exists_mem_cons_iff]

theorem mapM_eq {f : α → Query β} {g : α → β} {as : List α} (each : ∀ a ∈ as, (f a).Meets (· = g a) E) :
    (as.mapM f).Meets (· = as.map g) E := by
  induction as with
  | nil => exact .pure rfl
  | cons a as ih =>
    rw [List.mapM_cons]
    refine (each a List.mem_cons_self).bind fun b first => ?_
    refine (ih fun c hc => each c (List.mem_cons_of_mem a hc)).bind fun rest found => .pure ?_
    rw [first, found, List.map_cons]

theorem foldlM_eq {f : β → α → Query β} {g : β → α → β} {Inv : β → Prop} {as : List α} {b : β}
    (each : ∀ a ∈ as, ∀ b, Inv b → (f b a).Meets (fun b' => b' = g b a ∧ Inv b') E) (start : Inv b) :
    (as.foldlM f b).Meets (· = as.foldl g b) E := by
  induction as generalizing b with
  | nil => exact .pure rfl
  | cons a as ih =>
    obtain ⟨first, rest⟩ := List.forall_mem_cons.1 each
    rw [List.foldlM_cons]
    refine (first b start).bind fun _ ⟨next, kept⟩ => ?_
    rw [List.foldl_cons, ← next]
    exact ih rest kept

theorem filterAuxM {p : α → Query Bool} {as acc : List α}
    (each : ∀ a ∈ as, (p a).Meets (fun b => b = true ↔ P a) E) :
    (as.filterAuxM p acc).Meets (fun found => ∀ a, a ∈ found ↔ a ∈ acc ∨ a ∈ as ∧ P a) E := by
  induction as generalizing acc with
  | nil => exact .pure fun a => by simp
  | cons a as ih =>
    rw [List.filterAuxM]
    refine (each a List.mem_cons_self).bind fun b passes => ?_
    refine (ih fun c hc => each c (List.mem_cons_of_mem a hc)).imp fun found mem c => (mem c).trans ?_
    cases b with
    | true =>
      have holds : P a := passes.1 rfl
      have first : c = a ∧ P c ↔ c = a := and_iff_left_of_imp fun same => same ▸ holds
      rw [cond_true, List.mem_cons, List.mem_cons, or_and_right, first, or_assoc, or_left_comm]
    | false =>
      have first : ¬ (c = a ∧ P c) := fun ⟨same, holds⟩ => Bool.false_ne_true (passes.2 (same ▸ holds))
      rw [cond_false, List.mem_cons, or_and_right, or_iff_right first]

theorem filterM {p : α → Query Bool} {as : List α}
    (each : ∀ a ∈ as, (p a).Meets (fun b => b = true ↔ P a) E) :
    (as.filterM p).Meets (fun found => ∀ a, a ∈ found ↔ a ∈ as ∧ P a) E :=
  (filterAuxM each).bind fun found mem => .pure fun a => by
    rw [List.mem_reverse, mem, or_iff_right List.not_mem_nil]

theorem of_run (meets : q.Meets P E) {s s' : Session} (truthful : s.Truthful) {a : α}
    (run : q.run s = (.ok a, s')) : P a := by
  rcases meets s truthful with ⟨_, _, found, -, h⟩ | ⟨_, _, failed, -⟩
  · rw [run] at found
    cases found
    exact h
  · rw [run] at failed
    cases failed

theorem and (meets : q.Meets P E) (meets' : q.Meets P' E') : q.Meets (fun a => P a ∧ P' a) E := by
  intro s truthful
  rcases meets s truthful with ⟨a, s', run, left, h⟩ | failed
  · exact .inl ⟨a, s', run, left, h, meets'.of_run truthful run⟩
  · exact .inr failed

end Meets

/-- Whether a query can stand in for another: from right answers it runs the same, to what the other meets. -/
structure Follows (q' q : Query α) (P : α → Prop) (E : Error → Prop) : Prop where
  meets : q.Meets P E
  same : ∀ s : Session, s.Truthful → q'.run s = q.run s

namespace Follows

theorem of_meets (meets : q.Meets P E) : q.Follows q P E := ⟨meets, fun _ _ => rfl⟩

theorem imp (follows : q'.Follows q P E) (imp : ∀ a, P a → P' a) : q'.Follows q P' E :=
  ⟨follows.meets.imp imp, follows.same⟩

protected theorem bind (follows : q'.Follows q P E) (rest : ∀ a, P a → (f' a).Follows (f a) Q E) :
    (q' >>= f').Follows (q >>= f) Q E := by
  refine ⟨follows.meets.bind fun a h => (rest a h).meets, fun s truthful => ?_⟩
  rw [run_bind, run_bind, follows.same s truthful]
  rcases follows.meets s truthful with ⟨a, s', run, truthful, h⟩ | ⟨e, s', run, -⟩
  · rw [run]
    exact (rest a h).same s' truthful
  · rw [run]

end Follows

theorem nextWatch_meets : nextWatch.Meets (fun _ => True) E :=
  fun s truthful => .inl ⟨s.watches s.solves, { s with solves := s.solves + 1 }, rfl, truthful, trivial⟩

theorem ofExcept_meets {ε : Type} {g : ε → Error} {r : Except ε α}
    (h : (∃ a, r = .ok a ∧ P a) ∨ ∃ e, r = .error e ∧ E (g e)) : (ofExcept g r).Meets P E := by
  rcases h with ⟨a, rfl, h⟩ | ⟨e, rfl, h⟩
  · exact .pure h
  · exact fun s truthful => .inr ⟨g e, s, rfl, truthful, h⟩

section Solving

variable {problem : ClauseSet}

theorem solveFresh_within (probable : settings.Probable) (ground : ∀ c ∈ problem, c.isGround = true) :
    (solveFresh settings problem).Meets (Settles problem.toList []) settings.CutsShort := by
  obtain ⟨solver, made, ready, -⟩ := Solver.new_spec problem.toList [] settings ground nofun nofun
  unfold solveFresh
  rw [made, ofExcept_ok, pure_bind]
  refine nextWatch_meets.bind fun watch _ => ?_
  have nothing : ∀ l ∈ ([] : List Literal), solver.numbering.Has l := nofun
  obtain ⟨result, _, run, -, -, settled⟩ := ready.solveAssuming_within probable nothing watch
  rw [Solver.solve, run]
  exact ofExcept_meets settled

theorem solveFresh_meets (probable : settings.Probable) (ground : ∀ c ∈ problem, c.isGround = true) :
    (solveFresh settings problem).Meets (Settles problem.toList []) settings.Hinders :=
  (solveFresh_within probable ground).imp_error fun _ cut => cut.hinders

theorem solveFresh_eq_throw (settings : Settings) (not_ground : ¬ ∀ c ∈ problem, c.isGround = true) :
    ∃ e, solveFresh settings problem = throw e := by
  unfold solveFresh
  cases made : Solver.new problem.toList [] settings with
  | ok solver => exact absurd (Solver.of_new made).1 not_ground
  | error e => exact ⟨.engine e, rfl⟩

theorem solveFresh_meets_any (probable : settings.Probable) :
    (solveFresh settings problem).Meets (Settles problem.toList []) fun _ => True := by
  by_cases ground : ∀ c ∈ problem, c.isGround = true
  · exact (solveFresh_meets probable ground).imp_error fun _ _ => trivial
  · obtain ⟨e, failed⟩ := solveFresh_eq_throw settings ground
    rw [failed]
    exact .throw trivial

theorem remembered_meets {compute : Query (Option Witness)}
    (meets : compute.Meets (Settles problem.toList []) E) :
    (remembered problem compute).Meets (Settles problem.toList []) E := by
  intro s truthful
  unfold run remembered
  cases known : s.cache.find? problem with
  | some answer =>
    obtain ⟨⟨found, _⟩, found_eq, rfl⟩ := Option.map_eq_some_iff.1 known
    obtain rfl : found = problem := by simpa using List.find?_some found_eq
    exact .inl ⟨_, _, rfl, truthful, truthful _ (List.mem_of_find?_eq_some found_eq)⟩
  | none =>
    rcases meets { s with cache := s.cache.miss } truthful with
      ⟨answer, s', run, truthful, settles⟩ | ⟨e, s', run, truthful, h⟩
    · have run : compute { s with cache := s.cache.miss } = (.ok answer, s') := run
      dsimp only
      rw [run]
      exact .inl ⟨answer, _, rfl, List.forall_mem_cons.2 ⟨settles, truthful⟩, settles⟩
    · have run : compute { s with cache := s.cache.miss } = (.error e, s') := run
      dsimp only
      rw [run]
      exact .inr ⟨e, s', rfl, truthful, h⟩

end Solving

/-! ### Answers -/

def Answers (q : Query α) (settings : Settings) (a : α) : Prop := q.Meets (· = a) settings.Hinders

theorem Meets.answers {a : α} (meets : q.Meets P settings.Hinders) (unique : ∀ b, P b → b = a) :
    q.Answers settings a :=
  meets.imp unique

theorem Answers.run {a : α} (answers : q.Answers settings a) (untimed : settings.solveLimit? = none)
    {s : Session} (truthful : s.Truthful) : ∃ s', q.run s = (.ok a, s') ∧ s'.Truthful := by
  obtain ⟨_, s', run, truthful, rfl⟩ := (Meets.unhindered answers untimed).result truthful
  exact ⟨s', run, truthful⟩

end Query

end Defeasible
