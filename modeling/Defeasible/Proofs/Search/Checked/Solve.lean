import Defeasible.Proofs.Search.Checked.Conflict
import Defeasible.Proofs.Search.Checked.Propagation
import Defeasible.Proofs.Search.Solving

/-! A solve is the same with its checks and without bounds on its loops. -/

namespace Defeasible.Search.Checked

open State

variable {s : State} {settings : Settings} {clauses : List (List Lit)} {assumptions : List Lit}

theorem learn_eq (h : s.Coherent) {learnt : Learnt} (lesson : s.Lesson learnt) :
    learn s learnt = pure (s.learn learnt) := by
  have hback := h.backjump learnt.backjumpLevel
  have hasAtom (l : Lit) (hl : l ∈ learnt.toList) : (s.backjump learnt.backjumpLevel).HasAtom l.atom :=
    (hasAtom_backjump _ _).2 (lesson.shape.hasAtom h l hl)
  rw [learn, backjump_eq h, pure_bind]
  cases hothers : learnt.others.toList with
  | nil =>
    rw [learn_nil hothers]
    exact assign_eq hback (hasAtom _ (List.mem_cons_self ..)) none
  | cons second rest =>
    have hlist : learnt.toList = learnt.asserted :: second :: rest := by rw [Learnt.toList, hothers]
    have nodup := lesson.shape.nodup
    rw [hlist] at hasAtom nodup
    have first := hasAtom learnt.asserted (by simp)
    have stored := hback.store hasAtom nodup
    rw [learn_cons hothers]
    dsimp only
    rw [store_eq (hback.watchIndex_lt first) (hback.watchIndex_lt (hasAtom second (by simp))), pure_bind]
    refine (assign_eq stored ((hasAtom_store _).2 first) _).trans ?_
    rw [State.store, clauses_backjump]

theorem restartIfDue_eq (h : s.Coherent) : restartIfDue s = pure s.restartIfDue := by
  unfold restartIfDue State.restartIfDue
  split
  · unfold restart State.restart
    rcases nextThreshold s.settings s.luby with ⟨restartThreshold, luby⟩
    dsimp only
    apply backjump_eq
    exact { h with }
  · rfl

theorem resolveConflict_eq {key : Nat} {c : Array Lit} (inv : s.Invariant settings clauses)
    (above : 0 < s.trail.level) (hc : s.clauses[key]? = some c)
    (falsified : ∀ l ∈ c, l.negate ∈ s.trail.literals)
    (current : ∃ l ∈ c, s.level l.atom = s.trail.level) :
    resolveConflict s key = pure (s.resolveConflict key) := by
  obtain ⟨learnt, t, run, remarked, unmarked, lesson⟩ :=
    analyse_spec inv.coherent inv.queued.linked inv.unmarked above hc falsified current
  have lesson := remarked.lesson lesson
  have inv' := inv.remarked remarked unmarked
  have h : (t.learn learnt).decayActivity.Coherent := { (inv'.learn lesson).coherent with }
  have analysed := analyse_eq inv.coherent inv.queued inv.unmarked above hc falsified current
  rw [resolveConflict, analysed, pure_bind,
    State.resolveConflict, run]
  dsimp only
  rw [learn_eq inv'.coherent lesson, pure_bind, restartIfDue_eq h, pure_bind]

theorem decide_eq (h : s.Coherent) {l : Lit} (hasAtom : s.HasAtom l.atom) :
    decide s l = pure (s.decide l) :=
  assign_eq h.openLevel hasAtom none

theorem popUnvalued_eq {fuel : Nat} (q : s.Queued) (bound : s.activity.heap.size < fuel) :
    popUnvalued s = pure (State.popUnvalued fuel s) := by
  induction fuel generalizing s with
  | zero => omega
  | succ fuel ih =>
    rw [popUnvalued, loop_eq, State.popUnvalued]
    dsimp only
    rw [pop_eq, pure_bind]
    rcases hpop : s.activity.pop with ⟨top, queue⟩
    cases top with
    | none => rfl
    | some atom =>
      obtain ⟨waits, loses⟩ := q.linked.pop (by rw [hpop])
      rw [hpop] at loses
      have loses : PriorityQueue.Loses s.activity atom queue := loses
      have lt := (q.hasAtom atom waits).2
      have hget := Array.getElem?_eq_getElem lt
      have value : s.value? atom = s.values[atom] := by rw [value?, hget]; rfl
      have size := loses.size_heap
      dsimp only
      rw [get_eq hget, pure_bind, ← value]
      have same : State.value? { s with activity := queue } atom = s.value? atom := rfl
      rw [same]
      split
      · rfl
      · exact ih (q.lose loses) (by change queue.heap.size < fuel; omega)

theorem mostActive_eq (q : s.Queued) : popUnvalued s = pure s.mostActive :=
  popUnvalued_eq q (Nat.lt_succ_self _)

theorem anyAtom_eq (q : s.Queued) : anyAtom s = pure s.anyAtom := by
  rw [anyAtom, State.anyAtom]
  by_cases empty : s.unvalued.isEmpty = true
  · rw [if_pos empty, mostActive_eq q, pure_bind]
    simp only [empty, if_true]
  · have pos : 0 < s.unvalued.length := List.length_pos_iff.2 (by simpa using empty)
    obtain ⟨i, ok, lt⟩ := s.random.below_ok pos
    rw [if_neg empty]
    simp only [empty]
    rcases draw : s.random.below s.unvalued.length with ⟨result, random⟩
    rw [draw] at ok
    obtain rfl : result = .ok i := ok
    simp only [get_eq_getD (show i < s.unvalued.toArray.size by simpa using lt) 0, remove_eq, pure_bind]
    simp

theorem choose_eq (q : s.Queued) : choose s = pure s.choose := by
  unfold choose State.choose
  dsimp only
  split
  · rcases s.random.chance s.settings.randomDecisionBias.value with ⟨draw, random⟩
    have q' : { s with random }.Queued := { q with }
    match draw with
    | .error e => rfl
    | .ok true => exact anyAtom_eq q'
    | .ok false =>
      dsimp only
      rw [mostActive_eq q', pure_bind]
  · rw [mostActive_eq q, pure_bind]

theorem polarity_eq (h : s.Coherent) {atom : Nat} (hasAtom : s.HasAtom atom) :
    polarity s atom = pure (s.polarity atom) := by
  unfold polarity State.polarity
  split
  · rw [get_eq_getD (h.lt_phases hasAtom) false, pure_bind]
  · rfl

theorem decideFreely_eq (h : s.Coherent) (q : s.Queued) : decideFreely s = pure s.decideFreely := by
  rw [decideFreely, choose_eq q, pure_bind, State.decideFreely]
  rcases chosen : s.choose with ⟨atom?, t⟩
  match atom? with
  | .error e => rfl
  | .ok none => rfl
  | .ok (some atom) =>
    have c : Chosen s (some atom) t := by
      rcases choose_spec q with ⟨found, ok, c⟩ | ⟨-, e, random, failed⟩
      · rw [chosen] at ok c
        cases ok
        exact c
      · rw [chosen] at failed
        cases failed
    have hasAtom := (c.free atom rfl).1
    have ht : t.Coherent := by
      rw [c.eq]
      exact { h with }
    have hasAtom' : t.HasAtom atom := by
      rw [c.eq]
      exact hasAtom
    dsimp only
    rw [polarity_eq ht hasAtom', pure_bind]
    rcases polarity_spec t atom with ⟨b, random, heq⟩ | ⟨-, e, random, heq⟩
    · rw [heq]
      dsimp only
      rw [decide_eq, pure_bind]
      · exact { ht with }
      · exact hasAtom'
    · rw [heq]

theorem makeDecision_eq (h : s.Coherent) (q : s.Queued) (known : ∀ a ∈ assumptions, s.HasAtom a.atom) :
    makeDecision s assumptions = pure (s.makeDecision assumptions) := by
  rw [makeDecision, State.makeDecision]
  cases next : assumptions[s.trail.level]? with
  | none => exact decideFreely_eq h q
  | some l =>
    have hasAtom := known l (List.mem_of_getElem? next)
    have knows : s.knows l = true := by simpa [State.knows] using hasAtom.2
    simp only [litValue?_eq hasAtom.2, decide_eq h hasAtom, knows, pure_bind]
    cases s.litValue? l with
    | none => rfl
    | some b => cases b <;> rfl

theorem search_of_pass (deadline : Deadline) (inv : s.Invariant settings clauses)
    (g : Searching assumptions s.trail.head s) (known : ∀ a ∈ assumptions, s.HasAtom a.atom) :
    search assumptions deadline s =
      match State.pass assumptions deadline s with
      | .inl answer => pure answer
      | .inr s => search assumptions deadline s := by
  rw [search, loop_eq, State.pass]
  dsimp only
  rw [propagate_eq inv.coherent inv.watched, pure_bind]
  rcases drawn : s.propagate with ⟨conflict, t⟩
  have p := propagate_spec inv.coherent inv.watched drawn
  have inv₁ := inv.propagates p
  cases conflict with
  | some key =>
    have g₁ := g.grow p.grows (p.guarded _ (Nat.le_refl _) g.guarded)
    obtain ⟨c, hc, falsified, current⟩ := p.exists_current g₁
    have inv₂ : t.countConflict.Invariant settings clauses := inv₁.counted
    cases decided : t.trail.isDecided with
    | false =>
      have decided : t.countConflict.trail.isDecided = false := decided
      simp only [decided]
      rfl
    | true =>
      have above := (isDecided_iff t).1 decided
      have decided : t.countConflict.trail.isDecided = true := decided
      simp only [decided, resolveConflict_eq inv₂ above hc falsified current, pure_bind]
      rcases t.countConflict.resolveConflict key with ⟨result, u⟩
      cases result with
      | error e => rfl
      | ok _ => rfl
  | none =>
    have inv₂ : { t with checks := t.checks + 1 }.Invariant settings clauses := inv₁.counted
    have known' : ∀ a ∈ assumptions, t.HasAtom a.atom := fun a ha => p.grows.retains.hasAtom _ (known a ha)
    have decision := makeDecision_eq inv₂.coherent inv₂.queued known'
    dsimp only
    generalize ({ t with checks := t.checks + 1 } : State) = u at decision ⊢
    split
    · rfl
    · rw [decision, pure_bind]
      rcases u.makeDecision assumptions with ⟨result, u⟩
      cases result with
      | error e => rfl
      | ok decision => cases decision <;> rfl

theorem search_eq {fuel : Nat} (deadline : Deadline) (inv : s.Invariant settings clauses)
    (g : Searching assumptions s.trail.head s) (known : ∀ a ∈ assumptions, s.HasAtom a.atom)
    (bound : s.workLeft assumptions < fuel) :
    search assumptions deadline s = pure (State.search assumptions deadline fuel s) := by
  induction fuel generalizing s with
  | zero => omega
  | succ fuel ih =>
    have passes := pass_spec deadline inv g known
    rw [search_of_pass deadline inv g known, State.search]
    generalize State.pass assumptions deadline s = outcome at passes ⊢
    cases outcome with
    | inl answer => rfl
    | inr t =>
      have less := Advances.less passes
      exact ih passes.invariant passes.searching (passes.hasAtom known) (by omega)

theorem solve_eq (inv : s.Invariant settings clauses) (settled : s.Settled)
    (known : ∀ a ∈ assumptions, s.HasAtom a.atom) (deadline : Deadline) :
    solve s assumptions deadline = pure (s.solve assumptions deadline) := by
  rw [solve, State.solve, backjump_eq inv.coherent, pure_bind]
  split
  · rfl
  · next unrefuted =>
    have g := settled.searching inv.coherent (by simpa using unrefuted) assumptions
    have known' := known_backjump known 0
    exact search_eq deadline (inv.backjump 0) g known' (workLeft_lt_searchBound _ assumptions)

end Defeasible.Search.Checked
