import Defeasible.Proofs.Theory.Consequence

/-! Sessions only remember answers to ground problems, as no other problem is ever answered. So a theory tells
nothing of a literal that is not ground, unless no level is consistent with the evidence. -/

namespace Defeasible

def Session.Grounded (s : Session) : Prop := ∀ e ∈ s.cache.entries, ∀ c ∈ e.1, c.isGround = true

theorem Session.grounded_new (watches : Nat → Stopwatch) : ({ watches } : Session).Grounded :=
  fun _ h => absurd h List.not_mem_nil

namespace Query

variable {α β : Type} {q : Query α} {f : α → Query β} {P P' : α → Prop} {Q : β → Prop} {E : Error → Prop}
  {settings : Settings} {problem : ClauseSet}

def Secures (q : Query α) (P : α → Prop) : Prop :=
  ∀ s : Session, s.Truthful → s.Grounded → ∀ a s', q.run s = (.ok a, s') → s'.Truthful ∧ s'.Grounded ∧ P a

namespace Secures

theorem imp (secures : q.Secures P) (imp : ∀ a, P a → P' a) : q.Secures P' :=
  fun s truthful grounded a s' run => (secures s truthful grounded a s' run).imp_right (And.imp_right (imp a))

protected theorem pure {a : α} (h : P a) : (pure a : Query α).Secures P := by
  rintro s truthful grounded _ _ ⟨⟩
  exact ⟨truthful, grounded, h⟩

protected theorem throw (e : Error) : (throw e : Query α).Secures P := by
  rintro s - - _ _ ⟨⟩

protected theorem bind (secures : q.Secures P) (rest : ∀ a, P a → (f a).Secures Q) : (q >>= f).Secures Q := by
  intro s truthful grounded b s' run
  obtain ⟨a, s₁, first, run⟩ := of_run_bind run
  obtain ⟨truthful, grounded, h⟩ := secures s truthful grounded a s₁ first
  exact rest a h s₁ truthful grounded b s' run

theorem and_meets (secures : q.Secures P) (meets : q.Meets P' E) : q.Secures fun a => P a ∧ P' a := by
  intro s truthful grounded a s' run
  obtain ⟨truthful', grounded', h⟩ := secures s truthful grounded a s' run
  exact ⟨truthful', grounded', h, meets.of_run truthful run⟩

end Secures

def Keeps (q : Query α) : Prop := ∀ s : Session, (q.run s).2.cache = s.cache

theorem keeps_pure (a : α) : (pure a : Query α).Keeps := fun _ => rfl

theorem keeps_nextWatch : nextWatch.Keeps := fun _ => rfl

theorem keeps_ofExcept {ε : Type} (g : ε → Error) (r : Except ε α) : (ofExcept g r).Keeps := fun _ => by
  cases r <;> rfl

protected theorem Keeps.bind (keeps : q.Keeps) (rest : ∀ a, (f a).Keeps) : (q >>= f).Keeps := by
  intro s
  have first := keeps s
  revert first
  rw [run_bind]
  rcases q.run s with ⟨_ | a, s'⟩
  · exact id
  · exact (rest a s').trans

theorem cache_solveFresh (settings : Settings) (problem : ClauseSet) (s : Session) :
    ((solveFresh settings problem).run s).2.cache = s.cache := by
  have keeps : (solveFresh settings problem).Keeps :=
    (keeps_ofExcept _ _).bind fun _ => keeps_nextWatch.bind fun _ => keeps_ofExcept _ _
  exact keeps s

theorem solveFresh_secures :
    (solveFresh settings problem).Secures fun _ => ∀ c ∈ problem, c.isGround = true := by
  intro s truthful grounded a s' run
  have same : s'.cache = s.cache := by rw [← cache_solveFresh settings problem s, run]
  refine ⟨fun e he => truthful e (same ▸ he), fun e he => grounded e (same ▸ he), ?_⟩
  by_contra not_ground
  obtain ⟨e, failed⟩ := solveFresh_eq_throw settings not_ground
  rw [failed] at run
  cases run

theorem remembered_secures {compute : Query (Option Witness)}
    (secures : compute.Secures fun answer =>
      (∀ c ∈ problem, c.isGround = true) ∧ Settles problem.toList [] answer) :
    (remembered problem compute).Secures fun _ => ∀ c ∈ problem, c.isGround = true := by
  intro s truthful grounded a s' run
  unfold Query.run remembered at run
  cases known : s.cache.find? problem with
  | some answer =>
    rw [known] at run
    obtain ⟨⟨found, _⟩, found_eq, rfl⟩ := Option.map_eq_some_iff.1 known
    obtain rfl : found = problem := by simpa using List.find?_some found_eq
    cases run
    exact ⟨truthful, grounded, grounded _ (List.mem_of_find?_eq_some found_eq)⟩
  | none =>
    rw [known] at run
    dsimp only at run
    rcases computed : compute { s with cache := s.cache.miss } with ⟨_ | answer, s₁⟩
    · rw [computed] at run
      cases run
    · rw [computed] at run
      cases run
      obtain ⟨truthful', grounded', ground, settles⟩ :=
        secures { s with cache := s.cache.miss } truthful grounded a s₁ computed
      exact ⟨List.forall_mem_cons.2 ⟨settles, truthful'⟩, List.forall_mem_cons.2 ⟨ground, grounded'⟩, ground⟩

end Query

namespace Theory

open Query (Secures)

variable {t : Theory} {evidence : Evidence} {l : Literal} {c : Clause} {n : Necessity}

section Queries

variable (probable : t.settings.Probable)

theorem requireGround_secures : t.requireGround.Secures fun _ => True := by
  rw [requireGround]
  split
  · exact .pure trivial
  · exact .throw _

include probable

theorem solveProblem_secures (problem : ClauseSet) :
    (t.solveProblem problem).Secures fun _ => ∀ c ∈ problem, c.isGround = true := by
  unfold solveProblem
  split
  · exact Query.remembered_secures (Query.solveFresh_secures.and_meets (Query.solveFresh_meets_any probable))
  · exact Query.solveFresh_secures

theorem solveAt_secures (n : Necessity) (evidence : Evidence) : (t.solveAt n evidence).Secures fun _ => True :=
  requireGround_secures.bind fun _ _ => (solveProblem_secures probable _).imp fun _ _ => trivial

theorem searchLevel_secures {weights : Array Necessity} {fuel low high : Nat}
    {best : Option (Witness × Necessity)} :
    (t.searchLevel evidence weights fuel low high best).Secures fun _ => True := by
  induction fuel generalizing low high best with
  | zero => exact .pure trivial
  | succ fuel ih =>
    rw [searchLevel]
    split
    · refine (solveAt_secures probable _ evidence).bind fun answer _ => ?_
      cases answer <;> exact ih
    · exact .pure trivial

theorem solve_secures (evidence : Evidence) : (t.solve evidence).Secures fun _ => True := by
  unfold solve
  dsimp only
  split
  · exact (solveAt_secures probable .certain evidence).bind fun _ _ => .pure trivial
  · exact searchLevel_secures probable

variable (regular : t.Regular)

include regular

theorem implies_secures (can_fail : ¬ c.isTautology = true) (preferred : t.Preferred evidence n) :
    (t.implies evidence c).Secures fun _ => ∀ l ∈ c, l.isGround = true := by
  rw [implies, if_neg can_fail]
  refine requireGround_secures.bind fun _ _ => ?_
  have meets : (t.solve evidence).Meets (t.Prefers evidence) fun _ => True :=
    (askable_any regular probable).solve_meets fun _ _ => trivial
  refine ((solve_secures probable evidence).and_meets meets).bind fun answer ⟨_, prefers⟩ => ?_
  cases answer with
  | none => exact absurd preferred.consistent (prefers n preferred.mem)
  | some found =>
    refine (solveProblem_secures probable _).bind fun _ ground => .pure fun l hl => ?_
    -- The negations of the literals are asked about.
    have asked : Clause.unit l.negate ∈ t.cut found.2 ∪ units evidence.toList ∪ units c.negated :=
      OrdSet.mem_union.2 (.inr (OrdSet.mem_ofList.2 (List.mem_map_of_mem (List.mem_map_of_mem hl))))
    exact List.all_eq_true.1 (ground _ asked) l.negate (Clause.mem_unit.2 rfl)

theorem impliedLiterals_secures (preferred : t.Preferred evidence n) {atoms : List Literal} :
    (t.impliedLiterals evidence atoms).Secures fun _ =>
      ∀ a ∈ atoms, ¬ a ∈ evidence → ¬ a.negate ∈ evidence → a.isGround = true := by
  have asks (m : Literal) : (t.impliesLiteral evidence m).Secures fun _ => m.isGround = true := by
    have can_fail : ¬ (Clause.unit m).isTautology = true := fun tautology =>
      Clause.unit_can_fail m (Clause.isTautology_iff.1 tautology)
    refine (implies_secures probable regular can_fail preferred).imp fun _ ground => ?_
    exact ground m (Clause.mem_unit.2 rfl)
  induction atoms with
  | nil => exact .pure nofun
  | cons atom atoms ih =>
    rw [impliedLiterals]
    split
    · next decided =>
      rw [Bool.or_eq_true, OrdSet.has_eq_true, OrdSet.has_eq_true] at decided
      refine ih.imp fun _ rest => List.forall_mem_cons.2 ⟨fun not_mem negate_not_mem => ?_, rest⟩
      exact (decided.elim not_mem negate_not_mem).elim
    · refine (asks atom).bind fun _ ground => ?_
      have all (ls : LiteralSet)
          (rest : ∀ a ∈ atoms, ¬ a ∈ evidence → ¬ a.negate ∈ evidence → a.isGround = true) :
          ∀ a ∈ atom :: atoms, ¬ a ∈ evidence → ¬ a.negate ∈ evidence → a.isGround = true :=
        List.forall_mem_cons.2 ⟨fun _ _ => ground, rest⟩
      split
      · exact ih.bind fun ls rest => .pure (all ls rest)
      · refine (asks atom.negate).bind fun _ _ => ?_
        split
        · exact ih.bind fun ls rest => .pure (all ls rest)
        · exact ih.imp all

end Queries

end Theory

end Defeasible
