import Defeasible.Proofs.Search.History

/-! A search as its users see it. Atoms and clauses are added between solves, and every solve answers for
all the clauses so far: with a value for each atom, or with the certainty that there is no model. -/

namespace Defeasible.Search

def Over (n : Nat) (clause : List Lit) : Prop := ∀ l ∈ clause, 0 < l.atom ∧ l.atom ≤ n

instance (n : Nat) (clause : List Lit) : Decidable (Over n clause) :=
  inferInstanceAs (Decidable (∀ l ∈ clause, _))

theorem Over.mono {m n : Nat} {clause : List Lit} (bounded : Over m clause) (le : m ≤ n) : Over n clause :=
  fun l hl => ⟨(bounded l hl).1, Nat.le_trans (bounded l hl).2 le⟩

def Valuation.ofModel (model : List Lit) : Valuation := fun atom => decide (⟨atom, true⟩ ∈ model)

namespace State

variable {s s' : State} {settings : Settings} {clauses : List (List Lit)} {assumptions : List Lit}
  {deadline : Deadline} {n : Nat}

/-! Only `newAtom` makes atoms. -/

section Size

theorem size_values_visit {falsified : Lit} {fuel : Nat} {keys : Array Nat} {i : Nat} :
    (visit falsified fuel s keys i).2.1.values.size = s.values.size := by
  induction fuel generalizing s keys i with
  | zero => rfl
  | succ fuel ih =>
    unfold visit
    split
    · rfl
    · dsimp only
      split
      · rw [ih, setClause]
      · split
        · rw [ih]
          rfl
        · split
          · rw [ih, assign, Array.size_setIfInBounds, setClause]
          · rfl

theorem size_values_propagateLit (s : State) (l : Lit) :
    (s.propagateLit l).2.values.size = s.values.size :=
  size_values_visit

theorem size_values_propagateUpTo {fuel : Nat} :
    (propagateUpTo fuel s).2.values.size = s.values.size := by
  induction fuel generalizing s with
  | zero => rfl
  | succ fuel ih =>
    unfold propagateUpTo
    split
    · rfl
    · next l trail _ =>
      dsimp only
      generalize drawn : State.propagateLit _ l = result
      have size := congrArg (·.2.values.size) drawn
      rw [size_values_propagateLit] at size
      rcases result with ⟨conflict, t⟩
      cases conflict with
      | some key => exact size.symm
      | none => exact ih.trans size.symm

theorem size_values_propagate : s.propagate.2.values.size = s.values.size :=
  size_values_propagateUpTo

theorem size_values_addClause {clause : List Lit} (added : s.addClause clause = .ok s') :
    s'.values.size = s.values.size := by
  have back : (s.backjump 0).values.size = s.values.size := size_values_backjump 0
  unfold addClause at added
  dsimp only at added
  split at added
  · cases added
    exact back
  · split at added
    · cases added
    · cases added
      exact back
    · cases added
      exact back
    · next l _ =>
      have size : ((s.backjump 0).assign l none).propagate.2.values.size = s.values.size := by
        rw [size_values_propagate, assign, Array.size_setIfInBounds, back]
      split at added
      · next h =>
        rw [h] at size
        cases added
        exact size
      · next h =>
        rw [h] at size
        cases added
        exact size
    · cases added
      exact back

theorem size_values_pass {r : Except Error Report} (inv : s.Invariant settings clauses)
    (g : Searching assumptions s.trail.head s) (known : ∀ a ∈ assumptions, s.HasAtom a.atom)
    (passed : pass assumptions deadline s = .inl (r, s')) : s'.values.size = s.values.size := by
  have passes := pass_spec deadline inv g known
  have size : s.propagate.2.values.size = s.values.size := size_values_propagate
  unfold pass at passed
  rcases drawn : s.propagate with ⟨conflict, t⟩
  rw [drawn] at size passed
  cases conflict with
  | some key =>
    have p := propagate_spec inv.coherent inv.watched drawn
    have g' := g.grow p.grows (p.guarded _ (Nat.le_refl _) g.guarded)
    have counted : t.countConflict.Invariant settings clauses := (inv.propagates p).counted
    obtain ⟨c, hc, falsified, current⟩ := p.exists_current g'
    dsimp only at passed
    cases decided : t.countConflict.trail.isDecided with
    | false =>
      simp only [decided] at passed
      cases passed
      exact size
    | true =>
      -- a conflict above level zero is resolved, and the search goes on
      have above := (isDecided_iff t.countConflict).1 decided
      obtain ⟨u, resolved, -⟩ := resolveConflict_spec counted g'.counted above hc falsified current
      simp only [decided, resolved] at passed
      cases passed
  | none =>
    have p := propagate_spec inv.coherent inv.watched drawn
    have counted : { t with checks := t.checks + 1 }.Invariant settings clauses :=
      (inv.propagates p).counted
    have decides := makeDecision_spec counted.queued fun a ha => p.grows.retains.hasAtom _ (known a ha)
    dsimp only at passed
    split at passed
    · cases passed
      exact size
    · revert passed decides
      rcases State.makeDecision _ assumptions with ⟨d, u⟩
      intro decides passed
      have size' : u.values.size = s.values.size := decides.size_values.trans size
      match d with
      | .error e =>
        cases passed
        exact size'
      | .ok .assumptionConflict =>
        cases passed
        exact size'
      | .ok .exhausted =>
        cases passed
        exact size'
      | .ok .satisfied => cases passed
      | .ok (.decided _) => cases passed

theorem size_values_search {fuel : Nat} (inv : s.Invariant settings clauses)
    (g : Searching assumptions s.trail.head s) (known : ∀ a ∈ assumptions, s.HasAtom a.atom) :
    (search assumptions deadline fuel s).2.values.size = s.values.size := by
  induction fuel generalizing s with
  | zero => rfl
  | succ fuel ih =>
    have passes := pass_spec deadline inv g known
    rw [search]
    cases passed : pass assumptions deadline s with
    | inl answer => exact size_values_pass inv g known passed
    | inr t =>
      rw [passed] at passes
      have advances : Advances settings clauses assumptions s t := passes
      exact (ih advances.invariant advances.searching (advances.hasAtom known)).trans advances.size_values

theorem size_values_solve (inv : s.Invariant settings clauses) (settled : s.Settled)
    (known : ∀ a ∈ assumptions, s.HasAtom a.atom) :
    (s.solve assumptions deadline).2.values.size = s.values.size := by
  have back : (s.backjump 0).values.size = s.values.size := size_values_backjump 0
  unfold solve
  dsimp only
  split
  · exact back
  · next unrefuted =>
    have g := settled.searching inv.coherent (by simpa using unrefuted) assumptions
    have known' := known_backjump known 0
    exact (size_values_search (inv.backjump 0) g known').trans back

end Size

section Valuation

theorem mem_valuation {l : Lit} : l ∈ s.valuation ↔ s.HasAtom l.atom ∧ s.litValue? l = some true := by
  obtain ⟨a, p⟩ := l
  have mem : (⟨a, p⟩ : Lit) ∈ s.valuation ↔
      ∃ i < s.values.size - 1, ∃ b, s.value? (i + 1) = some b ∧ (⟨i + 1, b⟩ : Lit) = ⟨a, p⟩ := by
    simp only [valuation, List.mem_filterMap, List.mem_range, Option.map_eq_some_iff, atomCount]
  rw [mem]
  constructor
  · rintro ⟨i, lt, b, value, eq⟩
    obtain ⟨rfl, rfl⟩ := Lit.mk.inj eq
    exact ⟨⟨Nat.succ_pos i, by dsimp only; omega⟩, by simp [litValue?, value]⟩
  · rintro ⟨⟨pos, lt⟩, holds⟩
    obtain ⟨b, value, eq⟩ := Option.map_eq_some_iff.1 holds
    obtain rfl : b = p := by simpa using eq
    obtain ⟨i, rfl⟩ : ∃ i : Nat, a = i + 1 := ⟨a - 1, (Nat.sub_add_cancel pos).symm⟩
    dsimp only at lt
    exact ⟨i, by omega, b, value, rfl⟩

variable (total : ∀ atom, s.HasAtom atom → s.value? atom ≠ none)

include total

theorem atoms_valuation : s.valuation.map Lit.atom = List.range' 1 s.atomCount := by
  have valued : ∀ i ∈ List.range s.atomCount,
      ((s.value? (i + 1)).map (Lit.mk (i + 1))).map Lit.atom = some (i + 1) := fun i hi => by
    have lt := List.mem_range.1 hi
    unfold atomCount at lt
    obtain ⟨b, value⟩ := Option.ne_none_iff_exists'.1 (total (i + 1) ⟨Nat.succ_pos i, by omega⟩)
    rw [value]
    rfl
  rw [valuation, List.map_filterMap, List.filterMap_congr valued, List.filterMap_eq_map',
    List.range'_eq_map_range]
  exact List.map_congr_left fun i _ => Nat.add_comm i 1

theorem holds_valuation {l : Lit} (hasAtom : s.HasAtom l.atom) :
    l.Holds (Valuation.ofModel s.valuation) ↔ s.litValue? l = some true := by
  obtain ⟨b, value⟩ := Option.ne_none_iff_exists'.1 (total l.atom hasAtom)
  have truth : Valuation.ofModel s.valuation l.atom = b := by
    cases b <;> simp [Valuation.ofModel, mem_valuation, litValue?, value, hasAtom]
  simp [Lit.Holds, truth, litValue?, value]

end Valuation

/-- A state between two operations: it has so many atoms, and knows these clauses. -/
structure Ready (settings : Settings) (clauses : List (List Lit)) (n : Nat) (s : State) : Prop where
  invariant : s.Invariant settings clauses
  settled : s.Settled
  size_values : s.values.size = n + 1

inductive Answers (settings : Settings) (clauses : List (List Lit)) (n : Nat) (assumptions : List Lit) :
    Except Error Report × State → Prop
  | satisfiable (s : State) (ready : s.Ready settings clauses n)
    (total : ∀ atom, s.HasAtom atom → s.value? atom ≠ none)
    (models : Models (Valuation.ofModel s.valuation) clauses)
    (holds : ∀ a ∈ assumptions, a.Holds (Valuation.ofModel s.valuation)) :
    Answers settings clauses n assumptions (.ok .satisfiable, s)
  | unsatisfiable (s : State) (ready : s.Ready settings clauses n) (fails : ∀ v, ¬ Models v clauses) :
    Answers settings clauses n assumptions (.ok .unsatisfiable, s)
  | assumptionConflict (s : State) (ready : s.Ready settings clauses n)
    (fails : ∀ v, Models v clauses → ∃ a ∈ assumptions, ¬ a.Holds v) :
    Answers settings clauses n assumptions (.ok .assumptionConflict, s)

namespace Ready

theorem new (settings : Settings) : (State.new settings).Ready settings [] 0 := by
  refine ⟨new_invariant settings, new_settled settings, ?_⟩
  unfold State.new
  rcases nextThreshold settings {} with ⟨restartThreshold, luby⟩
  rfl

theorem hasAtom (ready : s.Ready settings clauses n) {clause : List Lit} (bounded : Over n clause) :
    ∀ l ∈ clause, s.HasAtom l.atom := by
  intro l hl
  obtain ⟨pos, le⟩ := bounded l hl
  exact ⟨pos, by rw [ready.size_values]; exact Nat.lt_succ_of_le le⟩

theorem atomCount (ready : s.Ready settings clauses n) : s.atomCount = n := by
  rw [State.atomCount, ready.size_values, Nat.add_sub_cancel]

theorem newAtom (ready : s.Ready settings clauses n) :
    s.newAtom.1 = n + 1 ∧ s.newAtom.2.Ready settings clauses (n + 1) :=
  ⟨ready.size_values, ready.invariant.newAtom, ready.settled.newAtom, by
    rw [size_values_newAtom, ready.size_values]⟩

theorem newAtoms (ready : s.Ready settings clauses n) (count : Nat) :
    (s.newAtoms count).Ready settings clauses (n + count) := by
  induction count generalizing s n with
  | zero => exact ready
  | succ count ih =>
    have rest := ih ready.newAtom.2
    rwa [Nat.add_right_comm] at rest

theorem addClause (ready : s.Ready settings clauses n) {clause : List Lit} (bounded : Over n clause) :
    ∃ s', s.addClause clause = .ok s' ∧ s'.Ready settings (clauses ++ [clause]) n := by
  obtain ⟨s', added, invariant, settled⟩ :=
    addClause_spec ready.invariant ready.settled (ready.hasAtom bounded)
  exact ⟨s', added, invariant, settled, (size_values_addClause added).trans ready.size_values⟩

theorem addClauses (ready : s.Ready settings clauses n) {more : List (List Lit)}
    (bounded : ∀ c ∈ more, Over n c) :
    ∃ s', s.addClauses more = .ok s' ∧ s'.Ready settings (clauses ++ more) n := by
  induction more generalizing s clauses with
  | nil => exact ⟨s, rfl, by rwa [List.append_nil]⟩
  | cons c more ih =>
    obtain ⟨t, added, ready⟩ := ready.addClause (bounded c List.mem_cons_self)
    obtain ⟨s', addedAll, ready⟩ := ih ready fun d hd => bounded d (List.mem_cons_of_mem c hd)
    rw [List.append_assoc] at ready
    exact ⟨s', by rw [State.addClauses, added]; exact addedAll, ready⟩

theorem of_mem_iff (ready : s.Ready settings clauses n) {same : List (List Lit)}
    (mem : ∀ c, c ∈ clauses ↔ c ∈ same) : s.Ready settings same n := by
  refine ⟨ready.invariant.weaken (fun c => (mem c).1) ?_, ready.settled, ready.size_values⟩
  exact ready.invariant.kept.imp_right fun kept c hc => kept c ((mem c).2 hc)

theorem solve_within (ready : s.Ready settings clauses n) (probable : settings.Probable)
    (bounded : Over n assumptions) (deadline : Deadline) :
    (∃ t i, s.solve assumptions deadline = (.ok .timeUp, t) ∧ t.Ready settings clauses n ∧
        deadline i = true) ∨
      Answers settings clauses n assumptions (s.solve assumptions deadline) := by
  have known := ready.hasAtom bounded
  have concludes := solve_spec ready.invariant ready.settled known deadline
  have size : (s.solve assumptions deadline).2.values.size = n + 1 :=
    (size_values_solve ready.invariant ready.settled known).trans ready.size_values
  revert concludes size
  rcases s.solve assumptions deadline with ⟨r, t⟩
  intro concludes size
  have ready' : t.Ready settings clauses n := ⟨concludes.invariant, concludes.settled, size⟩
  have h := concludes.invariant.coherent
  cases concludes.answered with
  | satisfiable _ g complete last valued =>
    have total := valued probable
    refine .inr (.satisfiable t ready' total (fun clause mem => ?_) fun a mem => ?_)
    · obtain ⟨l, hl, holds⟩ := g.models concludes.invariant (Nat.le_of_eq complete.symm) total mem
      have on := (h.value_iff l).1 holds
      exact ⟨l, hl, (holds_valuation total (h.hasAtom l on)).2 holds⟩
    · obtain ⟨j, hj⟩ := List.mem_iff_getElem?.1 mem
      have lt := (List.getElem?_eq_some_iff.1 hj).1
      have on := (g.assumed j a hj (by omega)).1
      exact (holds_valuation total (h.hasAtom a on)).2 ((h.value_iff a).2 on)
  | unsatisfiable _ refuted => exact .inr (.unsatisfiable t ready' (concludes.invariant.refuted refuted))
  | assumptionConflict _ fails => exact .inr (.assumptionConflict t ready' fails)
  | timeUp _ i up => exact .inl ⟨t, i, rfl, ready', up⟩
  | failed _ _ improbable => exact absurd probable improbable

theorem solve (ready : s.Ready settings clauses n) (probable : settings.Probable)
    (bounded : Over n assumptions) :
    Answers settings clauses n assumptions (s.solve assumptions .never) := by
  rcases ready.solve_within probable bounded .never with ⟨_, _, _, _, ⟨⟩⟩ | answers
  exact answers

end Ready

end State

end Defeasible.Search
