import Defeasible.Search.Decision
import Defeasible.Proofs.Search.Learning

/-! A free decision is made on an atom without value, and there is none left if none is found. -/

namespace Defeasible.Search.State

variable {s s' : State} {p : Prop} {settings : Settings} {clauses : List (List Lit)}
  {assumptions : List Lit}

structure Chosen (s : State) (atom? : Option Nat) (s' : State) : Prop where
  eq : s' = { s with activity := s'.activity, random := s'.random }
  queued : s'.Queued
  free : ∀ atom, atom? = some atom → s.HasAtom atom ∧ s.value? atom = none
  waiting : s.Waiting → ∀ atom, s.HasAtom atom → s.value? atom = none → atom? ≠ some atom →
    s'.activity.isWaiting atom = true
  drained : atom? = none → ∀ atom, s'.activity.isWaiting atom = false

theorem Chosen.exhausted (c : Chosen s none s') (w : s.Waiting) (atom : Nat) (h : s.HasAtom atom) :
    s.value? atom ≠ none := by
  intro free
  have := c.waiting w atom h free nofun
  rw [c.drained rfl] at this
  cases this

theorem Queued.lose {atom : Nat} {q : PriorityQueue Float} (h : s.Queued)
    (loses : PriorityQueue.Loses s.activity atom q) : { s with activity := q }.Queued :=
  h.requeue loses.linked loses.size_values rfl fun a ha => ((loses.isWaiting_iff a).1 ha).2

theorem popUnvalued_spec {fuel : Nat} (h : s.Queued) (bound : s.activity.heap.size < fuel) :
    Chosen s (popUnvalued fuel s).1 (popUnvalued fuel s).2 := by
  induction fuel generalizing s with
  | zero => omega
  | succ fuel ih =>
    rw [popUnvalued]
    rcases hpop : s.activity.pop with ⟨top, q⟩
    cases top with
    | none =>
      have hq : q = s.activity := by
        unfold PriorityQueue.pop at hpop
        split at hpop
        · exact (Prod.mk.inj hpop).2.symm
        · cases hpop
      subst hq
      have empty := PriorityQueue.pop_eq_none h.linked (by rw [hpop])
      exact
        { eq := rfl
          queued := h
          free := nofun
          waiting := fun w a ha free _ => w a ha free
          drained := fun _ => empty }
    | some atom =>
      obtain ⟨waits, loses⟩ := h.linked.pop (by rw [hpop])
      rw [hpop] at loses
      have loses : PriorityQueue.Loses s.activity atom q := loses
      have lost := h.lose loses
      dsimp only
      split
      · next free =>
        have free : s.value? atom = none := Option.isNone_iff_eq_none.1 free
        refine
          { eq := rfl
            queued := lost
            free := fun a heq => ?_
            waiting := fun w a ha open' hne => ?_
            drained := nofun }
        · obtain rfl := Option.some.inj heq
          exact ⟨h.hasAtom _ waits, free⟩
        · refine (loses.isWaiting_iff a).2 ⟨?_, w a ha open'⟩
          rintro rfl
          exact hne rfl
      · next valued =>
        have rest := ih lost (by have := loses.size_heap; change q.heap.size < fuel; omega)
        refine
          { eq := by rw [rest.eq]
            queued := rest.queued
            free := rest.free
            waiting := fun w => rest.waiting fun a ha free => ?_
            drained := rest.drained }
        refine (loses.isWaiting_iff a).2 ⟨?_, w a ha free⟩
        rintro rfl
        exact valued (Option.isNone_iff_eq_none.2 free)

theorem mostActive_spec (h : s.Queued) : Chosen s s.mostActive.1 s.mostActive.2 :=
  popUnvalued_spec h (Nat.lt_succ_self _)

theorem mem_unvalued {atom : Nat} : atom ∈ s.unvalued ↔ s.HasAtom atom ∧ s.value? atom = none := by
  simp only [unvalued, List.mem_filter, List.mem_map, List.mem_range, Option.isNone_iff_eq_none,
    HasAtom, atomCount]
  apply and_congr_left
  intro _
  constructor
  · rintro ⟨i, hi, rfl⟩
    omega
  · rintro ⟨pos, lt⟩
    exact ⟨atom - 1, by omega, by omega⟩

theorem anyAtom_spec (h : s.Queued) : ∃ atom?, s.anyAtom.1 = .ok atom? ∧ Chosen s atom? s.anyAtom.2 := by
  unfold anyAtom
  by_cases hempty : s.unvalued.isEmpty = true
  · simp only [hempty, if_true]
    exact ⟨_, rfl, mostActive_spec h⟩
  · simp only [hempty]
    have pos : 0 < s.unvalued.length := by
      rw [List.length_pos_iff]
      simpa using hempty
    obtain ⟨i, hi, lt⟩ := s.random.below_ok pos
    rcases hdraw : s.random.below s.unvalued.length with ⟨draw, random⟩
    rw [hdraw] at hi
    obtain rfl : draw = .ok i := hi
    have hget : s.unvalued.getD i 0 ∈ s.unvalued := by
      rw [List.getD_eq_getElem?_getD, List.getElem?_eq_getElem lt]
      exact List.getElem_mem lt
    refine ⟨_, rfl, ?_⟩
    dsimp only
    generalize s.unvalued.getD i 0 = atom at hget
    obtain ⟨hasAtom, free⟩ := mem_unvalued.1 hget
    have chosen : ∀ a, Option.some atom = Option.some a → s.HasAtom a ∧ s.value? a = none := by
      intro a heq
      obtain rfl := Option.some.inj heq
      exact ⟨hasAtom, free⟩
    by_cases waits : s.activity.isWaiting atom = true
    · have loses := h.linked.remove waits
      refine ⟨rfl, { h.lose loses with }, chosen, fun w a ha free' hne => ?_, nofun⟩
      refine (loses.isWaiting_iff a).2 ⟨?_, w a ha free'⟩
      rintro rfl
      exact hne rfl
    · have same : (s.activity.remove atom).2 = s.activity := by
        unfold PriorityQueue.remove
        have : s.activity.place? atom = none := by simpa [PriorityQueue.isWaiting] using waits
        rw [this]
      rw [same]
      exact ⟨rfl, { h with }, chosen, fun w a ha free' _ => w a ha free', nofun⟩

theorem choose_spec (h : s.Queued) :
    (∃ atom?, s.choose.1 = .ok atom? ∧ Chosen s atom? s.choose.2) ∨
      ¬ s.settings.Probable ∧ ∃ e random, s.choose = (.error e, { s with random }) := by
  unfold choose
  dsimp only
  split
  · next positive =>
    by_cases p : s.settings.Probable
    · obtain ⟨b, hb⟩ := s.random.chance_ok (Float.le_of_lt positive) (p.bias positive)
      rcases hdraw : s.random.chance s.settings.randomDecisionBias.value with ⟨draw, random⟩
      rw [hdraw] at hb
      obtain rfl : draw = .ok b := hb
      have h' : { s with random }.Queued := { h with }
      cases b with
      | true =>
        obtain ⟨atom?, ok, c⟩ := anyAtom_spec h'
        exact .inl ⟨atom?, ok, { c with eq := by rw [c.eq] }⟩
      | false =>
        have c := mostActive_spec h'
        exact .inl ⟨_, rfl, { c with eq := by rw [c.eq] }⟩
    · rcases hdraw : s.random.chance s.settings.randomDecisionBias.value with ⟨draw, random⟩
      have h' : { s with random }.Queued := { h with }
      match draw with
      | .ok true =>
        obtain ⟨atom?, ok, c⟩ := anyAtom_spec h'
        exact .inl ⟨atom?, ok, { c with eq := by rw [c.eq] }⟩
      | .ok false =>
        have c := mostActive_spec h'
        exact .inl ⟨_, rfl, { c with eq := by rw [c.eq] }⟩
      | .error e => exact .inr ⟨p, e, random, rfl⟩
  · exact .inl ⟨_, rfl, mostActive_spec h⟩

theorem polarity_spec (s : State) (atom : Nat) :
    (∃ b random, s.polarity atom = (.ok b, { s with random })) ∨
      ¬ s.settings.Probable ∧ ∃ e random, s.polarity atom = (.error e, { s with random }) := by
  unfold polarity
  split
  · exact .inl ⟨_, s.random, rfl⟩
  · next unsaved =>
    rcases hdraw : s.random.chance s.settings.polarityLean.value with ⟨draw, random⟩
    cases draw with
    | ok b => exact .inl ⟨b, random, rfl⟩
    | error e =>
      refine .inr ⟨fun p => ?_, e, random, rfl⟩
      obtain ⟨low, high⟩ := p.lean (Bool.eq_false_of_not_eq_true unsaved)
      obtain ⟨b, hb⟩ := s.random.chance_ok low high
      rw [hdraw] at hb
      cases hb

inductive Decides (assumptions : List Lit) (s : State) : Except Fault Decision → State → Prop
  | satisfied (l : Lit) (next : assumptions[s.trail.level]? = some l) (holds : s.litValue? l = some true) :
    Decides assumptions s (.ok .satisfied) { s with trail := s.trail.openLevel }
  | conflict (l : Lit) (next : assumptions[s.trail.level]? = some l) (fails : s.litValue? l = some false) :
    Decides assumptions s (.ok .assumptionConflict) s
  | assumed (l : Lit) (next : assumptions[s.trail.level]? = some l) (free : s.litValue? l = none) :
    Decides assumptions s (.ok (.decided l)) (s.decide l)
  | free (atom : Nat) (b : Bool) (t : State) (random : Pcg) (counters : Counters)
    (last : assumptions.length ≤ s.trail.level) (chosen : Chosen s (some atom) t) :
    Decides assumptions s (.ok (.decided ⟨atom, b⟩)) ({ t with random, counters }.decide ⟨atom, b⟩)
  | exhausted (s' : State) (last : assumptions.length ≤ s.trail.level) (chosen : Chosen s none s') :
    Decides assumptions s (.ok .exhausted) s'
  | failed (e : Fault) (s' : State) (improbable : ¬ s.settings.Probable)
    (eq : s' = { s with activity := s'.activity, random := s'.random }) (queued : s'.Queued) :
    Decides assumptions s (.error e) s'

theorem decideFreely_spec (h : s.Queued) (last : assumptions.length ≤ s.trail.level) :
    Decides assumptions s s.decideFreely.1 s.decideFreely.2 := by
  unfold decideFreely
  rcases hchoose : s.choose with ⟨atom?, t⟩
  rcases choose_spec h with ⟨found, ok, c⟩ | ⟨p, e, random, heq⟩
  · rw [hchoose] at ok c
    obtain rfl : atom? = .ok found := ok
    have c : Chosen s found t := c
    cases found with
    | none => exact .exhausted t last c
    | some atom =>
      have settings : t.settings = s.settings := by rw [c.eq]
      rcases polarity_spec t atom with ⟨b, random, heq⟩ | ⟨p, e, random, heq⟩
      · simp only [heq]
        exact .free atom b t random _ last c
      · simp only [heq]
        rw [settings] at p
        refine .failed e _ p (by rw [c.eq]) ?_
        exact { c.queued with }
  · rw [heq] at hchoose
    obtain ⟨rfl, rfl⟩ := Prod.mk.inj hchoose
    exact .failed e _ p rfl { h with }

theorem makeDecision_spec (h : s.Queued) (known : ∀ a ∈ assumptions, s.HasAtom a.atom) :
    Decides assumptions s (s.makeDecision assumptions).1 (s.makeDecision assumptions).2 := by
  unfold makeDecision
  split
  · next hnone => exact decideFreely_spec h (List.getElem?_eq_none_iff.1 hnone)
  · next l hl =>
    have hknows : s.knows l = true := by
      simpa [knows] using (known l (List.mem_of_getElem? hl)).2
    simp only [hknows]
    cases hv : s.litValue? l with
    | none => exact .assumed l hl hv
    | some b =>
      cases b with
      | true => exact .satisfied l hl hv
      | false => exact .conflict l hl hv

namespace Structured

theorem openLevel (h : s.Structured p) : { s with trail := s.trail.openLevel }.Structured p :=
  { h with
    coherent := h.coherent.openLevel
    queued := { h.queued with } }

theorem decide (h : s.Structured p) {l : Lit} (hasAtom : s.HasAtom l.atom)
    (free : s.value? l.atom = none) : (s.decide l).Structured p := by
  apply h.openLevel.assign hasAtom free
  · exact nofun
  · intro _ _
    simp [Trail.openLevel, Trail.level]

theorem decide_chosen (h : s.Structured p) {atom : Nat} {b : Bool} {t : State} {random : Pcg}
    {counters : Counters} (c : Chosen s (some atom) t) :
    ({ t with random, counters }.decide ⟨atom, b⟩).Structured p := by
  obtain ⟨hasAtom, free⟩ := c.free atom rfl
  have decided := h.decide (l := ⟨atom, b⟩) hasAtom free
  have hvalue := value?_assign (s := { s with trail := s.trail.openLevel }) ⟨atom, b⟩ none hasAtom.2
  have queued := c.queued
  have waiting := c.waiting
  rw [c.eq] at queued ⊢
  generalize t.activity = activity at queued waiting ⊢
  refine { decided with
    coherent := { decided.coherent with }
    queued := queued.requeue queued.linked rfl (by simp [State.decide, State.assign]) fun _ ha => ha
    waiting := fun hp a ha open' => ?_ }
  have open' : (s.decide ⟨atom, b⟩).value? a = none := open'
  rw [State.decide, hvalue] at open'
  split at open'
  · cases open'
  · next hne =>
    refine waiting (h.waiting hp) a ?_ open' fun heq => hne (Option.some.inj heq).symm
    simpa [State.decide, State.assign, HasAtom] using ha

theorem exhausted (h : s.Structured p) (c : Chosen s none s') : s'.Structured p := by
  have queued := c.queued
  have exhausted := c.exhausted
  rw [c.eq] at queued ⊢
  exact { h with
    coherent := { h.coherent with }
    queued := queued
    waiting := fun hp a ha free => absurd free (exhausted (h.waiting hp) a ha) }

theorem decides {d : Except Fault Decision} (h : s.Structured p) (decides : Decides assumptions s d s')
    (known : ∀ a ∈ assumptions, s.HasAtom a.atom) (ends : p → ∃ decision, d = .ok decision) :
    s'.Structured p := by
  cases decides with
  | satisfied l next holds => exact h.openLevel
  | conflict l next fails => exact h
  | assumed l next free =>
    exact h.decide (known l (List.mem_of_getElem? next)) ((value?_eq_none_iff s l).2 free)
  | free atom b t random counters last chosen => exact h.decide_chosen chosen
  | exhausted _ last chosen => exact h.exhausted chosen
  | failed e _ improbable eq queued =>
    rw [eq] at queued ⊢
    refine { h with
      coherent := { h.coherent with }
      queued := queued
      waiting := fun hp => ?_ }
    obtain ⟨decision, hd⟩ := ends hp
    cases hd

end Structured

theorem Decides.size_values {d : Except Fault Decision} (decides : Decides assumptions s d s') :
    s'.values.size = s.values.size := by
  have size (t : State) (l : Lit) : (t.decide l).values.size = t.values.size := by
    simp [State.decide, assign]
  cases decides with
  | satisfied | conflict => rfl
  | assumed l => exact size s l
  | free atom b t random counters last chosen =>
    rw [size, chosen.eq]
  | exhausted _ _ chosen => rw [chosen.eq]
  | failed _ _ _ eq => rw [eq]

theorem Decides.ok_of_probable {d : Except Fault Decision} (decides : Decides assumptions s d s')
    (probable : s.settings.Probable) : ∃ decision, d = .ok decision := by
  cases decides with
  | failed _ _ improbable => exact absurd probable improbable
  | _ => exact ⟨_, rfl⟩

theorem Invariant.decide (inv : s.Invariant settings clauses) {l : Lit} (hasAtom : s.HasAtom l.atom)
    (free : s.value? l.atom = none) : (s.decide l).Invariant settings clauses := by
  have opened : { s with trail := s.trail.openLevel }.Invariant settings clauses :=
    { inv.structured.openLevel, inv with }
  apply opened.assign (List.Subset.refl _) hasAtom free
  · exact nofun
  · intro _ _
    simp [Trail.openLevel, Trail.level]
  · intro _ hzero
    simp [Trail.openLevel, Trail.level] at hzero
  · exact fun c hc => .inl hc

theorem Decides.invariant {d : Except Fault Decision} (decides : Decides assumptions s d s')
    (inv : s.Invariant settings clauses) (known : ∀ a ∈ assumptions, s.HasAtom a.atom) :
    s'.Invariant settings clauses := by
  have structured := inv.structured.decides decides known fun probable =>
    decides.ok_of_probable (by rwa [inv.settings_eq])
  cases decides with
  | satisfied l next holds => exact { structured, inv with }
  | conflict l next fails => exact inv
  | assumed l next free =>
    exact inv.decide (known l (List.mem_of_getElem? next)) ((value?_eq_none_iff s l).2 free)
  | free atom b t random counters last chosen =>
    obtain ⟨hasAtom, free⟩ := chosen.free atom rfl
    have decided := inv.decide (l := ⟨atom, b⟩) hasAtom free
    rw [chosen.eq] at structured ⊢
    exact { structured, decided with }
  | exhausted _ last chosen =>
    rw [chosen.eq] at structured ⊢
    exact { structured, inv with }
  | failed e _ improbable eq queued =>
    rw [eq] at structured ⊢
    exact { structured, inv with }

namespace Searching

variable {m : Nat}

theorem openLevel (g : Searching assumptions m s) (h : s.Coherent)
    (complete : s.trail.literals.size ≤ m) {l : Lit} (next : assumptions[s.trail.level]? = some l)
    (mem : l ∈ s.trail.literals) : Searching assumptions m { s with trail := s.trail.openLevel } :=
  { g with
    starts_le := fun x hx => by
      rcases Array.mem_push.1 hx with hx | rfl
      · exact g.starts_le x hx
      · exact complete
    assumed := fun j a ha hj => by
      have hj : j < s.trail.level + 1 := by simpa [Trail.level, Trail.openLevel] using hj
      rcases Nat.lt_succ_iff_lt_or_eq.1 hj with hj | rfl
      · exact g.assumed j a ha hj
      · obtain rfl : l = a := Option.some.inj (next.symm.trans ha)
        exact ⟨mem, Nat.le_succ_of_le (h.level_le l mem)⟩ }

theorem decide (g : Searching assumptions m s) (h : s.Coherent) (complete : s.trail.literals.size ≤ m)
    {l : Lit} (hasAtom : s.HasAtom l.atom) (free : s.value? l.atom = none)
    (next : assumptions[s.trail.level]? = some l ∨ assumptions.length ≤ s.trail.level) :
    Searching assumptions m (s.decide l) := by
  have hm : m ≤ s.trail.literals.size := Nat.le_trans g.le_head h.head_le
  have hlev := h.lt_levels hasAtom
  have hrea := h.lt_reasons hasAtom
  have guarded : Guarded { s with trail := s.trail.openLevel } m := g.guarded
  have hopen := h.openLevel
  have level : (s.decide l).level l.atom = s.trail.level + 1 := by
    refine (level_assign (s := { s with trail := s.trail.openLevel }) l none hlev l.atom).trans ?_
    rw [if_pos rfl]
    simp [Trail.level, Trail.openLevel]
  have old : ∀ k ∈ s.trail.literals, (s.decide l).level k.atom = s.level k.atom :=
    fun k hk => hopen.level_assign_of_mem _ hasAtom free hk
  have reason : ∀ k ∈ s.trail.literals, (s.decide l).reason? k.atom = s.reason? k.atom := by
    intro k hk
    refine (reason?_assign (s := { s with trail := s.trail.openLevel }) l none hrea k.atom).trans ?_
    exact if_neg (hopen.atom_ne_of_free free hk)
  exact
    { unrefuted := g.unrefuted
      le_head := g.le_head
      guarded := guarded.assign hopen _ hasAtom free hm
      starts_le := fun x hx => by
        rcases Array.mem_push.1 hx with hx | rfl
        · exact g.starts_le x hx
        · exact complete
      assumed := fun j a ha hj => by
        have hj : j < s.trail.level + 1 := by
          simpa [Trail.level, Trail.openLevel, State.decide, State.assign, Trail.push] using hj
        rcases Nat.lt_succ_iff_lt_or_eq.1 hj with hj | rfl
        · obtain ⟨mem, le⟩ := g.assumed j a ha hj
          exact ⟨Array.mem_push_of_mem _ mem, by rwa [old a mem]⟩
        · rcases next with next | last
          · obtain rfl : l = a := Option.some.inj (next.symm.trans ha)
            exact ⟨Array.mem_push_self .., Nat.le_of_eq level⟩
          · have := (List.getElem?_eq_some_iff.1 ha).1
            omega
      decided := fun k hk hr hpos hle => by
        rcases Array.mem_push.1 hk with hk | rfl
        · rw [reason k hk] at hr
          rw [old k hk] at hpos hle ⊢
          exact g.decided k hk hr hpos hle
        · rw [level] at hle ⊢
          rcases next with next | last
          · exact next
          · omega }

end Searching

end Defeasible.Search.State
