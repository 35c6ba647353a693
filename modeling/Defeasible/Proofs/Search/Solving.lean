import Defeasible.Search.Solve
import Defeasible.Proofs.Search.Deciding
import Defeasible.Proofs.Search.Progress

/-! One pass of a search either answers, or brings it nearer to its end. -/

namespace Defeasible.Search.State

variable {s s' : State} {p : Prop} {settings : Settings} {clauses : List (List Lit)}
  {assumptions : List Lit} {deadline : Deadline} {m : Nat}

section Counted

variable {bump : Float} {luby : Luby} {conflictsSinceRestart restartThreshold : Nat} {counters : Counters}
  {checks : Nat}

theorem Structured.counted (h : s.Structured p) : Structured p
    { s with bump, luby, conflictsSinceRestart, restartThreshold, counters, checks } :=
  { h with
    coherent := { h.coherent with }
    queued := { h.queued with } }

theorem Invariant.counted (inv : s.Invariant settings clauses) :
    { s with bump, luby, conflictsSinceRestart, restartThreshold, counters, checks }.Invariant
      settings clauses :=
  { inv.structured.counted, inv with }

theorem Searching.counted (g : Searching assumptions m s) : Searching assumptions m
    { s with bump, luby, conflictsSinceRestart, restartThreshold, counters, checks } :=
  { g with }

end Counted

def Settled (s : State) : Prop :=
  s.refuted = true ∨ s.Guarded (s.remaining 0) ∧ s.remaining 0 ≤ s.trail.head

theorem Searching.settled (g : Searching assumptions s.trail.head s) (h : s.Coherent)
    (complete : s.trail.head = s.trail.literals.size) : s.Settled := by
  have := h.remaining_le 0
  exact .inr ⟨g.guarded.mono (by omega), by omega⟩

theorem Settled.searching (settled : s.Settled) (h : s.Coherent) (unrefuted : s.refuted = false)
    (assumptions : List Lit) :
    Searching assumptions (s.backjump 0).trail.head (s.backjump 0) := by
  have hhead := head_backjump h 0
  obtain ⟨guarded, le⟩ := settled.resolve_left (by simp [unrefuted])
  have empty := starts_backjump_zero s
  have level : (s.backjump 0).trail.level = 0 := by rw [Trail.level, empty]; rfl
  refine
    { unrefuted := by rw [refuted_backjump, unrefuted]
      le_head := Nat.le_refl _
      guarded := (guarded.backjump h 0).mono (by omega)
      starts_le := fun x hx => by rw [empty] at hx; exact absurd hx (Array.not_mem_empty x)
      assumed := fun j a _ hj => by omega
      decided := fun l hl _ hpos _ => ?_ }
  have := (h.backjump 0).level_le l hl
  omega

def decisionsLeft (s : State) (assumptions : List Lit) : Nat :=
  (s.values.size - s.trail.literals.size) + (assumptions.length - s.trail.level)

/-- How much a search has left to do: clauses to learn, and then atoms and assumptions to decide. -/
def workLeft (s : State) (assumptions : List Lit) : Nat :=
  (4 ^ s.values.size - s.known.card) * (s.values.size + assumptions.length + 3) +
    s.decisionsLeft assumptions

theorem workLeft_lt_searchBound (s : State) (assumptions : List Lit) :
    s.workLeft assumptions < s.searchBound assumptions := by
  have h := Nat.mul_le_mul_right (s.values.size + assumptions.length + 3)
    (Nat.sub_le (4 ^ s.values.size) s.known.card)
  unfold workLeft decisionsLeft searchBound
  rw [Nat.add_mul, Nat.pow_eq]
  omega

/-- Whatever is learnt pays for all the decisions that it takes back. -/
theorem workLeft_lt_of_known (h : s'.Coherent) (size : s'.values.size = s.values.size)
    (more : s.known.card < s'.known.card) : s'.workLeft assumptions < s.workLeft assumptions := by
  have hle := h.card_known_le
  unfold workLeft decisionsLeft
  rw [size] at hle ⊢
  obtain ⟨k, hk⟩ : ∃ k, 4 ^ s.values.size - s.known.card = 4 ^ s.values.size - s'.known.card + 1 + k :=
    ⟨4 ^ s.values.size - s.known.card - (4 ^ s.values.size - s'.known.card + 1), by omega⟩
  rw [hk, Nat.add_mul, Nat.add_mul]
  omega

theorem workLeft_add_le (assumptions : List Lit) (size : s'.values.size = s.values.size)
    (known : s.known ⊆ s'.known) :
    s'.workLeft assumptions + s.decisionsLeft assumptions ≤
      s.workLeft assumptions + s'.decisionsLeft assumptions := by
  have hcard := Finset.card_le_card known
  have h := Nat.mul_le_mul_right (s.values.size + assumptions.length + 3)
    (show 4 ^ s.values.size - s'.known.card ≤ 4 ^ s.values.size - s.known.card by omega)
  unfold workLeft
  rw [size]
  omega

theorem Extends.decisionsLeft_le (e : Extends s s') (assumptions : List Lit) :
    s'.decisionsLeft assumptions ≤ s.decisionsLeft assumptions := by
  have size : s.trail.literals.size ≤ s'.trail.literals.size := by
    by_contra hlt
    have := e.literals s'.trail.literals.size _ (Array.getElem?_eq_getElem (by omega))
    have := (Array.getElem?_eq_some_iff.1 this).1
    omega
  unfold decisionsLeft Trail.level
  rw [e.size_values, e.starts]
  omega

inductive Answered (settings : Settings) (clauses : List (List Lit)) (assumptions : List Lit)
    (deadline : Deadline) : Except Error Report → State → Prop
  | satisfiable (s : State) (g : Searching assumptions s.trail.head s)
    (complete : s.trail.head = s.trail.literals.size) (last : assumptions.length ≤ s.trail.level)
    (valued : settings.Probable → ∀ atom, s.HasAtom atom → s.value? atom ≠ none) :
    Answered settings clauses assumptions deadline (.ok .satisfiable) s
  | unsatisfiable (s : State) (refuted : s.refuted = true) :
    Answered settings clauses assumptions deadline (.ok .unsatisfiable) s
  | assumptionConflict (s : State) (fails : ∀ v, Models v clauses → ∃ a ∈ assumptions, ¬ a.Holds v) :
    Answered settings clauses assumptions deadline (.ok .assumptionConflict) s
  | timeUp (s : State) (n : Nat) (up : deadline n = true) :
    Answered settings clauses assumptions deadline (.ok .timeUp) s
  | failed (e : Fault) (s : State) (improbable : ¬ settings.Probable) :
    Answered settings clauses assumptions deadline (.error (.fault e)) s

structure Advances (settings : Settings) (clauses : List (List Lit)) (assumptions : List Lit)
    (s s' : State) : Prop where
  invariant : s'.Invariant settings clauses
  searching : Searching assumptions s'.trail.head s'
  size_values : s'.values.size = s.values.size
  less : s'.workLeft assumptions < s.workLeft assumptions

structure Concludes (settings : Settings) (clauses : List (List Lit)) (assumptions : List Lit)
    (deadline : Deadline) (r : Except Error Report) (s' : State) : Prop where
  invariant : s'.Invariant settings clauses
  settled : s'.Settled
  answered : Answered settings clauses assumptions deadline r s'

def Passes (settings : Settings) (clauses : List (List Lit)) (assumptions : List Lit)
    (deadline : Deadline) (s : State) : (Except Error Report × State) ⊕ State → Prop
  | .inl (r, t) => Concludes settings clauses assumptions deadline r t
  | .inr t => Advances settings clauses assumptions s t

theorem size_values_learn (s : State) (learnt : Learnt) :
    (s.learn learnt).values.size = s.values.size := by
  cases hothers : learnt.others.toList with
  | nil =>
    rw [learn_nil hothers]
    simp [assign]
  | cons second rest =>
    rw [learn_cons hothers, assign_store]
    simp [assign]

theorem size_values_restartIfDue (s : State) : s.restartIfDue.values.size = s.values.size := by
  unfold restartIfDue
  split
  · exact size_values_backjump 0
  · rfl

theorem size_values_resolveConflict (linked : s.activity.Linked) (key : Nat) :
    (s.resolveConflict key).2.values.size = s.values.size := by
  have remarked := remarked_analyse linked key
  unfold resolveConflict
  generalize s.analyse key = outcome at remarked ⊢
  obtain ⟨e | learnt, t⟩ := outcome
  · exact congrArg (fun s => s.values.size) remarked.eq
  · refine (size_values_restartIfDue _).trans ((size_values_learn t learnt).trans ?_)
    exact congrArg (fun s => s.values.size) remarked.eq

theorem restartIfDue_spec (inv : s.Invariant settings clauses)
    (g : Searching assumptions s.trail.head s) :
    s.restartIfDue.Invariant settings clauses ∧
      Searching assumptions s.restartIfDue.trail.head s.restartIfDue ∧
      s.known ⊆ s.restartIfDue.known := by
  unfold restartIfDue
  split
  · unfold restart
    rcases nextThreshold s.settings s.luby with ⟨restartThreshold, luby⟩
    dsimp only
    set t : State := { s with
      counters := { s.counters with restarts := s.counters.restarts + 1 }
      luby
      restartThreshold
      conflictsSinceRestart := 0 }
    have inv' : t.Invariant settings clauses := inv.counted
    have g' : Searching assumptions t.trail.head t := g.counted
    refine ⟨inv'.backjump 0, ?_, (inv'.coherent.retains_backjump 0).known_subset⟩
    rw [g'.head_backjump_eq inv'.coherent (.inr rfl)]
    exact g'.backjump inv'.coherent 0
  · exact ⟨inv, g, Finset.Subset.refl _⟩

theorem resolveConflict_spec {key : Nat} {c : Array Lit} (inv : s.Invariant settings clauses)
    (g : Searching assumptions m s) (above : 0 < s.trail.level) (hc : s.clauses[key]? = some c)
    (falsified : ∀ l ∈ c, l.negate ∈ s.trail.literals)
    (current : ∃ l ∈ c, s.level l.atom = s.trail.level) :
    ∃ s', s.resolveConflict key = (.ok (), s') ∧ Advances settings clauses assumptions s s' := by
  obtain ⟨learnt, t, hrun, rem, unmarked, lesson⟩ :=
    analyse_spec inv.coherent inv.queued.linked inv.unmarked above hc falsified current
  have lesson := rem.lesson lesson
  have inv₁ := inv.remarked rem unmarked
  have g₁ := g.remarked rem
  have inv₂ := inv₁.learn lesson
  have g₂ := g₁.learn inv₁.coherent lesson
  have decayed : (t.learn learnt).decayActivity.Invariant settings clauses := inv₂.counted
  obtain ⟨inv₃, g₃, known⟩ := restartIfDue_spec decayed g₂.counted
  have hsize := size_values_resolveConflict inv.queued.linked key
  simp only [resolveConflict, hrun] at hsize ⊢
  refine ⟨_, rfl, ?_⟩
  refine ⟨inv₃, g₃, hsize, workLeft_lt_of_known inv₃.coherent hsize ?_⟩
  calc
    s.known.card ≤ t.known.card := Finset.card_le_card rem.retains.known_subset
    _ < (t.learn learnt).known.card := lesson.card_known_lt g₁ inv₁.coherent
    _ ≤ (t.learn learnt).decayActivity.restartIfDue.known.card := Finset.card_le_card known

theorem Searching.holds (g : Searching assumptions m s) (inv : s.Invariant settings clauses)
    (few : s.trail.level ≤ assumptions.length) {v : Valuation} (hv : Models v clauses)
    (assumed : ∀ a ∈ assumptions, a.Holds v) : ∀ l ∈ s.trail.literals, l.Holds v := by
  have agrees := inv.agrees hv
  intro l hl
  refine inv.coherent.holds_of_decided agrees.clauses (fun k hk hle hr => ?_) l hl
    (inv.coherent.level_le l hl)
  rcases Nat.eq_zero_or_pos (s.level k.atom) with hz | hpos
  · exact agrees.fixed k hk hz
  · exact assumed k (List.mem_of_getElem? (g.decided k hk hr hpos (Nat.le_trans hle few)))

theorem Invariant.refute {key : Nat} {c : Array Lit} (inv : s.Invariant settings clauses)
    (zero : s.trail.level = 0) (hc : s.clauses[key]? = some c)
    (falsified : ∀ l ∈ c, l.negate ∈ s.trail.literals) (v : Valuation) : ¬ Models v clauses := by
  intro hv
  have agrees := inv.agrees hv
  obtain ⟨l, hl, holds⟩ := agrees.clauses key c hc
  have hneg := falsified l (Array.mem_toList_iff.1 hl)
  have hle := inv.coherent.level_le _ hneg
  have := agrees.fixed _ hneg (by omega)
  exact (Lit.holds_negate v l).1 this holds

theorem Propagates.exists_current {key : Nat} (p : Propagates s (some key) s')
    (g : Searching assumptions s.trail.head s') : ∃ c, s'.clauses[key]? = some c ∧
      (∀ l ∈ c, l.negate ∈ s'.trail.literals) ∧ ∃ l ∈ c, s'.level l.atom = s'.trail.level := by
  obtain ⟨c, hc, falsified, l, hl, i, hi, hli⟩ := p.false_clause key rfl
  refine ⟨c, hc, falsified, l, hl, ?_⟩
  exact p.coherent.level_eq_current (l := l.negate) hli fun x hx => Nat.le_trans (g.starts_le x hx) hi

theorem isDecided_iff (s : State) : s.trail.isDecided = true ↔ 0 < s.trail.level := by
  simp [Trail.isDecided, Trail.level, Array.size_pos_iff]

theorem pass_of_conflict {key : Nat} (inv : s.Invariant settings clauses)
    (g : Searching assumptions s.trail.head s) (drawn : s.propagate = (some key, s')) :
    Passes settings clauses assumptions deadline s (pass assumptions deadline s) := by
  have p := propagate_spec inv.coherent inv.watched drawn
  have inv₁ := inv.propagates p
  have g₁ := g.grow p.grows (p.guarded _ (Nat.le_refl _) g.guarded)
  obtain ⟨c, hc, falsified, current⟩ := p.exists_current g₁
  have counted : s'.countConflict.Invariant settings clauses := inv₁.counted
  simp only [pass, drawn]
  cases decided : s'.trail.isDecided with
  | true =>
    have above := (isDecided_iff s').1 decided
    obtain ⟨t, hrun, adv⟩ := resolveConflict_spec counted g₁.counted above hc falsified current
    have left := workLeft_add_le assumptions p.grows.size_values
      p.grows.retains.known_subset
    have fewer := p.grows.decisionsLeft_le assumptions
    have less : s'.workLeft assumptions ≤ s.workLeft assumptions := by omega
    have decided : s'.countConflict.trail.isDecided = true := decided
    simp only [decided, hrun]
    exact ⟨adv.invariant, adv.searching, adv.size_values.trans p.grows.size_values,
      Nat.lt_of_lt_of_le adv.less less⟩
  | false =>
    have zero : s'.trail.level = 0 := by
      simpa [Trail.isDecided, Trail.level] using decided
    have decided : s'.countConflict.trail.isDecided = false := decided
    simp only [decided]
    exact ⟨counted.refuted_intro (List.Subset.refl _) (inv₁.refute zero hc falsified), .inl rfl,
      .unsatisfiable _ rfl⟩

def Leads (settings : Settings) (clauses : List (List Lit)) (assumptions : List Lit)
    (deadline : Deadline) (s : State) : Except Fault Decision → State → Prop
  | .ok .satisfied, t => Advances settings clauses assumptions s t
  | .ok (.decided _), t => Advances settings clauses assumptions s t
  | .ok .assumptionConflict, t =>
    Concludes settings clauses assumptions deadline (.ok .assumptionConflict) t
  | .ok .exhausted, t => Concludes settings clauses assumptions deadline (.ok .satisfiable) t
  | .error e, t => Concludes settings clauses assumptions deadline (.error (.fault e)) t

theorem Decides.leads {d : Except Fault Decision} (decides : Decides assumptions s d s')
    (deadline : Deadline) (inv : s.Invariant settings clauses) (g : Searching assumptions s.trail.head s)
    (complete : s.trail.head = s.trail.literals.size) (known : ∀ a ∈ assumptions, s.HasAtom a.atom) :
    Leads settings clauses assumptions deadline s d s' := by
  have h := inv.coherent
  have inv' := decides.invariant inv known
  have hle := Nat.le_of_eq complete.symm
  -- a new literal or a new level leaves fewer decisions
  have fewer {t : State} (size : t.values.size = s.values.size) (retains : Retains s t)
      (less : t.decisionsLeft assumptions < s.decisionsLeft assumptions) :
      t.workLeft assumptions < s.workLeft assumptions := by
    have := workLeft_add_le assumptions size retains.known_subset
    omega
  have room {l : Lit} (hasAtom : s.HasAtom l.atom) (free : s.value? l.atom = none)
      (next : assumptions[s.trail.level]? = some l ∨ assumptions.length ≤ s.trail.level) :
      Advances settings clauses assumptions s (s.decide l) := by
    have inv' := inv.decide hasAtom free
    have size : (s.decide l).values.size = s.values.size := by simp [State.decide, State.assign]
    have literals : (s.decide l).trail.literals.size = s.trail.literals.size + 1 := by
      simp [State.decide, State.assign, Trail.push, Trail.openLevel]
    have level : (s.decide l).trail.level = s.trail.level + 1 := by
      simp [State.decide, State.assign, Trail.push, Trail.openLevel, Trail.level]
    have := inv'.coherent.size_literals_le
    refine ⟨inv', g.decide h hle hasAtom free next, size, fewer size ?_ ?_⟩
    · have retains := h.openLevel.retains_assign none hasAtom free
      exact { retains with }
    · unfold decisionsLeft
      rw [size, literals, level]
      omega
  cases decides with
  | satisfied l next holds =>
    have := (List.getElem?_eq_some_iff.1 next).1
    refine ⟨inv', g.openLevel h hle next ((h.value_iff l).1 holds), rfl,
      fewer rfl { Retains.refl s with } ?_⟩
    unfold decisionsLeft
    simp only [Trail.openLevel, Trail.level, Array.size_push] at this ⊢
    omega
  | assumed l next free =>
    exact room (known l (List.mem_of_getElem? next)) ((value?_eq_none_iff s l).2 free) (.inl next)
  | free atom b t random counters last chosen =>
    obtain ⟨hasAtom, free⟩ := chosen.free atom rfl
    have adv := room (l := ⟨atom, b⟩) hasAtom free (.inr last)
    rw [chosen.eq] at inv' ⊢
    exact ⟨inv', { adv.searching with }, adv.size_values, adv.less⟩
  | conflict l next fails =>
    refine ⟨inv', g.settled h complete, .assumptionConflict _ fun v hv => ?_⟩
    have lt := (List.getElem?_eq_some_iff.1 next).1
    by_contra hall
    simp only [not_exists, not_and, not_not] at hall
    have := g.holds inv (Nat.le_of_lt lt) hv hall _ ((h.false_iff l).1 fails)
    exact (Lit.holds_negate v l).1 this (hall l (List.mem_of_getElem? next))
  | exhausted _ last chosen =>
    have all := chosen.exhausted
    rw [chosen.eq] at inv' ⊢
    have g' : Searching assumptions s.trail.head
      { s with activity := s'.activity, random := s'.random } := { g with }
    exact ⟨inv', g'.settled inv'.coherent complete, .satisfiable _ g' complete last fun p a ha =>
      all (inv.waiting p) a ha⟩
  | failed e _ improbable eq queued =>
    rw [inv.settings_eq] at improbable
    rw [eq] at inv' ⊢
    have g' : Searching assumptions s.trail.head
      { s with activity := s'.activity, random := s'.random } := { g with }
    exact ⟨inv', g'.settled inv'.coherent complete, .failed e _ improbable⟩

theorem pass_of_complete (inv : s.Invariant settings clauses)
    (g : Searching assumptions s.trail.head s) (known : ∀ a ∈ assumptions, s.HasAtom a.atom)
    (drawn : s.propagate = (none, s')) :
    Passes settings clauses assumptions deadline s (pass assumptions deadline s) := by
  have p := propagate_spec inv.coherent inv.watched drawn
  have complete := p.complete rfl
  have guarded := p.guarded_all rfl g.starts_le g.guarded
  have g₁ := g.grow p.grows (p.guarded _ (Nat.le_refl _) g.guarded)
  have g₂ : Searching assumptions s'.trail.head s' :=
    { g₁ with
      le_head := Nat.le_refl _
      guarded := guarded
      starts_le := fun x hx => Nat.le_trans (g₁.starts_le x hx) p.grows.head_le }
  have inv₁ := inv.propagates p
  have left := workLeft_add_le assumptions p.grows.size_values
    p.grows.retains.known_subset
  have fewer := p.grows.decisionsLeft_le assumptions
  have known' : ∀ a ∈ assumptions, s'.HasAtom a.atom :=
    fun a ha => p.grows.retains.hasAtom _ (known a ha)
  set u : State := { s' with checks := s'.checks + 1 } with hu
  have inv₂ : u.Invariant settings clauses := inv₁.counted
  have g₃ : Searching assumptions u.trail.head u := g₂.counted
  simp only [pass, drawn, ← hu]
  by_cases up : deadline s'.checks = true
  · rw [if_pos up]
    exact ⟨inv₂, g₃.settled inv₂.coherent complete, .timeUp _ _ up⟩
  · rw [if_neg up]
    have spec := (makeDecision_spec inv₂.queued known').leads deadline inv₂ g₃ complete known'
    revert spec
    rcases u.makeDecision assumptions with ⟨d, t⟩
    intro spec
    have advance (adv : Advances settings clauses assumptions u t) :
        Advances settings clauses assumptions s t :=
      { adv with
        size_values := adv.size_values.trans p.grows.size_values
        less := by
          have less : t.workLeft assumptions < s'.workLeft assumptions := adv.less
          omega }
    match d with
    | .ok .satisfied => exact advance spec
    | .ok (.decided _) => exact advance spec
    | .ok .assumptionConflict => exact spec
    | .ok .exhausted => exact spec
    | .error e => exact spec

theorem pass_spec (deadline : Deadline) (inv : s.Invariant settings clauses)
    (g : Searching assumptions s.trail.head s)
    (known : ∀ a ∈ assumptions, s.HasAtom a.atom) :
    Passes settings clauses assumptions deadline s (pass assumptions deadline s) := by
  rcases drawn : s.propagate with ⟨conflict, t⟩
  cases conflict with
  | none => exact pass_of_complete inv g known drawn
  | some key => exact pass_of_conflict inv g drawn

theorem Advances.hasAtom (adv : Advances settings clauses assumptions s s')
    (known : ∀ a ∈ assumptions, s.HasAtom a.atom) : ∀ a ∈ assumptions, s'.HasAtom a.atom :=
  fun a ha => ⟨(known a ha).1, by rw [adv.size_values]; exact (known a ha).2⟩

theorem search_spec {fuel : Nat} (deadline : Deadline) (inv : s.Invariant settings clauses)
    (g : Searching assumptions s.trail.head s) (known : ∀ a ∈ assumptions, s.HasAtom a.atom)
    (bound : s.workLeft assumptions < fuel) :
    Concludes settings clauses assumptions deadline (search assumptions deadline fuel s).1
      (search assumptions deadline fuel s).2 := by
  induction fuel generalizing s with
  | zero => omega
  | succ fuel ih =>
    have passes := pass_spec deadline inv g known
    rw [search]
    generalize pass assumptions deadline s = outcome at passes ⊢
    cases outcome with
    | inl answer => exact passes
    | inr t =>
      have less := Advances.less passes
      exact ih passes.invariant passes.searching (passes.hasAtom known) (by omega)

theorem solve_spec (inv : s.Invariant settings clauses) (settled : s.Settled)
    (known : ∀ a ∈ assumptions, s.HasAtom a.atom) (deadline : Deadline) :
    Concludes settings clauses assumptions deadline (s.solve assumptions deadline).1
      (s.solve assumptions deadline).2 := by
  have inv' := inv.backjump 0
  unfold solve
  dsimp only
  split
  · next refuted => exact ⟨inv', .inl refuted, .unsatisfiable _ refuted⟩
  · next unrefuted =>
    have g := settled.searching inv.coherent (by simpa using unrefuted) assumptions
    have known' := known_backjump known 0
    exact search_spec deadline inv' g known' (workLeft_lt_searchBound _ assumptions)

end Defeasible.Search.State
