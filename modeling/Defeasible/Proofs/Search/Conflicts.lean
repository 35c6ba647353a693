import Defeasible.Proofs.Search.History

/-! The conflicts of a solve. After any history, whenever a solve analyses a clause that its current level has
made false, it learns a clause that follows and that forces its first literal a few levels below. -/

namespace Defeasible.Search.State

variable {s t u v : State} {settings : Settings} {clauses : List (List Lit)} {assumptions : List Lit}
  {deadline : Deadline} {passes key : Nat} {learnt : Learnt}

def afterPasses (assumptions : List Lit) (deadline : Deadline) (s : State) : (passes : Nat) → Option State
  | 0 => if s.refuted then none else some (s.backjump 0)
  | passes + 1 => (afterPasses assumptions deadline s passes).bind fun t =>
    (pass assumptions deadline t).getRight?

def conflict? (assumptions : List Lit) (deadline : Deadline) (s : State) (passes : Nat) :
    Option (Nat × State) :=
  (s.afterPasses assumptions deadline passes).bind fun t => match t.propagate with
    | (some key, t) => if t.trail.isDecided then some (key, t.countConflict) else none
    | (none, _) => none

theorem afterPasses_spec (inv : s.Invariant settings clauses) (settled : s.Settled)
    (known : ∀ a ∈ assumptions, s.HasAtom a.atom)
    (comes : s.afterPasses assumptions deadline passes = some t) :
    t.Invariant settings clauses ∧ Searching assumptions t.trail.head t ∧
      ∀ a ∈ assumptions, t.HasAtom a.atom := by
  induction passes generalizing t with
  | zero =>
    rw [afterPasses] at comes
    split at comes
    · cases comes
    · next unrefuted =>
      cases comes
      exact ⟨inv.backjump 0, settled.searching inv.coherent (by simpa using unrefuted) assumptions,
        known_backjump known 0⟩
  | succ passes ih =>
    obtain ⟨before, reached, goes⟩ := Option.bind_eq_some_iff.1 comes
    obtain ⟨inv', g, known'⟩ := ih reached
    have passed := pass_spec deadline inv' g known'
    rw [Sum.getRight?_eq_some_iff.1 goes] at passed
    exact ⟨passed.invariant, passed.searching, Advances.hasAtom passed known'⟩

theorem exists_last_pass (inv : s.Invariant settings clauses) (settled : s.Settled)
    (known : ∀ a ∈ assumptions, s.HasAtom a.atom) (deadline : Deadline) (unrefuted : s.refuted = false) :
    ∃ passes t, s.afterPasses assumptions deadline passes = some t ∧
      pass assumptions deadline t = .inl (s.solve assumptions deadline) := by
  -- as long as the bound is above the work that is left, the search goes on from a state of the solve
  have searches (fuel : Nat) : ∀ (passes : Nat) (t : State),
      s.afterPasses assumptions deadline passes = some t → t.workLeft assumptions < fuel →
      ∃ passes u, s.afterPasses assumptions deadline passes = some u ∧
        pass assumptions deadline u = .inl (search assumptions deadline fuel t) := by
    induction fuel with
    | zero => exact fun _ _ _ bound => absurd bound (Nat.not_lt_zero _)
    | succ fuel ih =>
      intro passes t comes bound
      obtain ⟨inv', g, known'⟩ := afterPasses_spec inv settled known comes
      have passed := pass_spec deadline inv' g known'
      rw [search]
      cases goes : pass assumptions deadline t with
      | inl answer => exact ⟨passes, t, comes, goes⟩
      | inr next =>
        rw [goes] at passed
        have less := Advances.less passed
        exact ih (passes + 1) next (by rw [afterPasses, comes, Option.bind_some, goes]; rfl) (by omega)
  have start : s.afterPasses assumptions deadline 0 = some (s.backjump 0) := by
    rw [afterPasses, unrefuted]
    rfl
  have solved : s.solve assumptions deadline =
      search assumptions deadline ((s.backjump 0).searchBound assumptions) (s.backjump 0) := by
    unfold solve
    dsimp only
    rw [refuted_backjump, unrefuted]
    rfl
  rw [solved]
  exact searches _ 0 _ start (workLeft_lt_searchBound _ assumptions)

def Falsified (s : State) (key : Nat) : Prop :=
  ∃ c, s.clauses[key]? = some c ∧ (∀ l ∈ c, s.litValue? l = some false) ∧
    ∃ l ∈ c, s.level l.atom = s.trail.level

/-- What an analysis that began in state `s` and ended in state `t` has learnt. -/
structure Teaches (s : State) (learnt : Learnt) (t : State) : Prop where
  follows : ∀ v, s.Agrees v → Satisfies v learnt.toList
  distinct : (learnt.toList.map Lit.atom).Nodup
  falsified : ∀ l ∈ learnt.toList, s.litValue? l = some false
  level_asserted : s.level learnt.asserted.atom = s.trail.level
  level_others : ∀ l ∈ learnt.others, 0 < s.level l.atom ∧ s.level l.atom < s.trail.level
  backjumpLevel_lt : learnt.backjumpLevel < s.trail.level
  level_le : ∀ l ∈ learnt.others, s.level l.atom ≤ learnt.backjumpLevel
  level_second : ∀ l, learnt.others[0]? = some l → s.level l.atom = learnt.backjumpLevel
  backjumpLevel_eq_zero : learnt.others = #[] → learnt.backjumpLevel = 0
  free : (t.backjump learnt.backjumpLevel).litValue? learnt.asserted = none
  others_false : ∀ l ∈ learnt.others, (t.backjump learnt.backjumpLevel).litValue? l = some false
  unmarked : ∀ atom, t.isSeen atom = false

theorem Falsified.teaches (falsified : s.Falsified key) (inv : s.Invariant settings clauses)
    (above : 0 < s.trail.level) : ∃ learnt t, s.analyse key = (.ok learnt, t) ∧ s.Teaches learnt t := by
  obtain ⟨c, hc, falsified, current⟩ := falsified
  have h := inv.coherent
  obtain ⟨learnt, t, run, remarked, unmarked, lesson⟩ := analyse_spec h inv.queued.linked inv.unmarked above hc
    (fun l hl => (h.false_iff l).1 (falsified l hl)) current
  have shape := lesson.shape
  have h' := remarked.coherent h
  have shape' := remarked.shape shape
  refine ⟨learnt, t, run, { lesson with
    follows := lesson.derived
    distinct := shape.nodup
    falsified := fun l hl => (h.false_iff l).2 ?_
    level_asserted := lesson.asserting.asserted_level
    level_others := lesson.asserting.others_level
    free := (value?_eq_none_iff _ _).1 (shape'.free h')
    others_false := fun l hl => ((h'.backjump _).false_iff l).2 (shape'.others_false h' l hl)
    unmarked }⟩
  rcases List.mem_cons.1 hl with rfl | hl
  · exact lesson.asserting.asserted_false
  · exact lesson.asserting.others_false l (Array.mem_toList_iff.1 hl)

theorem conflict?_spec (inv : s.Invariant settings clauses) (settled : s.Settled)
    (known : ∀ a ∈ assumptions, s.HasAtom a.atom)
    (met : s.conflict? assumptions deadline passes = some (key, u)) :
    u.Invariant settings clauses ∧ 0 < u.trail.level ∧ u.Falsified key := by
  obtain ⟨t, comes, met⟩ := Option.bind_eq_some_iff.1 met
  obtain ⟨inv', g, -⟩ := afterPasses_spec inv settled known comes
  rcases drawn : t.propagate with ⟨_ | key', t'⟩
  · rw [drawn] at met
    cases met
  · have p := propagate_spec inv'.coherent inv'.watched drawn
    have g' := g.grow p.grows (p.guarded _ (Nat.le_refl _) g.guarded)
    obtain ⟨c, hc, falsified, current⟩ := p.exists_current g'
    simp only [drawn, Option.ite_none_right_eq_some, Option.some.injEq, Prod.mk.injEq] at met
    obtain ⟨decided, rfl, rfl⟩ := met
    exact ⟨(inv'.propagates p).counted, (isDecided_iff _).1 decided,
      c, hc, fun l hl => (p.coherent.false_iff l).2 (falsified l hl), current⟩

/-- After any history, a solve only analyses clauses that its current level has made false. Whenever it does, the
analysis of any such clause teaches one that follows, with a single literal of the current level, which comes
first, and none of level zero. -/
theorem conflicts_teach (settings : Settings) (ops : List Operation) (legal : (State.new settings).Legal ops)
    (assumptions : List Lit) (known : ∀ a ∈ assumptions, ((State.new settings).run ops).HasAtom a.atom)
    (deadline : Deadline) (passes key : Nat) (s : State)
    (met : ((State.new settings).run ops).conflict? assumptions deadline passes = some (key, s)) :
    0 < s.trail.level ∧ s.Falsified key ∧
      ∀ key', s.Falsified key' → ∃ learnt t, s.analyse key' = (.ok learnt, t) ∧ s.Teaches learnt t := by
  obtain ⟨inv, settled⟩ := history_spec settings legal
  obtain ⟨inv', above, falsified⟩ := conflict?_spec inv settled known met
  exact ⟨above, falsified, fun _ falsified' => falsified'.teaches inv' above⟩

def entangled : List Operation :=
  [.newAtom, .newAtom, .newAtom, .newAtom, .newAtom, .newAtom, .newAtom, .addClause [⟨3, false⟩, ⟨4, true⟩],
    .addClause [⟨4, false⟩, ⟨1, false⟩, ⟨2, false⟩, ⟨6, true⟩],
    .addClause [⟨6, false⟩, ⟨3, false⟩, ⟨5, false⟩], .addClause [⟨5, true⟩]]

theorem conflicts_teach_entangled : ∃ s t,
    ((State.new {}).run entangled).conflict? [⟨1, true⟩, ⟨2, true⟩, ⟨7, true⟩, ⟨3, true⟩] .never 4 = some (1, s) ∧
      s.trail.level = 4 ∧ s.analyse 1 = (.ok ⟨⟨3, false⟩, #[⟨2, false⟩, ⟨1, false⟩], 2⟩, t) ∧
      s.Teaches ⟨⟨3, false⟩, #[⟨2, false⟩, ⟨1, false⟩], 2⟩ t := by
  set met? := ((State.new {}).run entangled).conflict? [⟨1, true⟩, ⟨2, true⟩, ⟨7, true⟩, ⟨3, true⟩] .never 4
    with eq
  have found : met?.map (fun p => (p.1, p.2.trail.level, (p.2.analyse 1).1)) =
      some (1, 4, .ok ⟨⟨3, false⟩, #[⟨2, false⟩, ⟨1, false⟩], 2⟩) := by
    rw [eq]
    decide +kernel
  obtain ⟨⟨key, s⟩, met, same⟩ := Option.map_eq_some_iff.1 found
  simp only [Prod.mk.injEq] at same
  obtain ⟨rfl, level, result⟩ := same
  rw [eq] at met
  obtain ⟨-, falsified, teaches⟩ := conflicts_teach {} entangled (by decide +kernel) _ (by decide +kernel) _ _ _ s met
  obtain ⟨learnt, t, run, teaches⟩ := teaches 1 falsified
  rw [run] at result
  cases result
  exact ⟨s, t, met, level, run, teaches⟩

end Defeasible.Search.State
