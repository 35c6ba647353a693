import Defeasible.Proofs.Search.Conflicts

/-! What propagation leaves in a solve. Where it ends without conflict, every stored clause has a true literal or two
without value, whatever was taken back, learnt or given up half way before; where it ends in a conflict, its clause is
false, and the current level has made it so. -/

namespace Defeasible.Search.State

variable {s t u : State} {settings : Settings} {clauses : List (List Lit)} {assumptions : List Lit}
  {deadline : Deadline} {passes key : Nat} {conflict : Option Nat} {c : Array Lit}

/-- No stored clause is false, and none has a single literal left, without value, that could make it true. -/
structure Saturated (s : State) : Prop where
  not_false : ∀ (key : Nat) (c : Array Lit), s.clauses[key]? = some c → ¬ ∀ l ∈ c, s.litValue? l = some false
  not_unit : ∀ (key : Nat) (c : Array Lit), s.clauses[key]? = some c →
    ¬ ∃ l ∈ c, s.litValue? l = none ∧ ∀ m ∈ c, m ≠ l → s.litValue? m = some false

/-- Once all literals of the trail are guarded, a clause has a true literal, or else nothing is known of the two that
are watched. -/
theorem Guarded.true_or_open (g : s.Guarded s.trail.literals.size) (h : s.Coherent) (hc : s.clauses[key]? = some lits) :
    (∃ l ∈ lits, s.litValue? l = some true) ∨
      ∃ a ∈ lits, ∃ b ∈ lits, a ≠ b ∧ s.litValue? a = none ∧ s.litValue? b = none := by
  have size := h.clause_size key lits hc
  obtain ⟨a, first⟩ : ∃ a, lits[0]? = some a := ⟨_, Array.getElem?_eq_getElem (by omega)⟩
  obtain ⟨b, second⟩ : ∃ b, lits[1]? = some b := ⟨_, Array.getElem?_eq_getElem (by omega)⟩
  have ha := Array.mem_of_getElem? first
  have hb := Array.mem_of_getElem? second
  -- where one watched literal is false, the other one is true
  have made_good {x y : Lit} (pair : WatchPair lits x y) (falsified : s.litValue? x = some false) :
      s.litValue? y = some true := by
    obtain ⟨i, hi⟩ := Array.mem_iff_getElem?.1 ((h.false_iff x).1 falsified)
    have lt := (Array.getElem?_eq_some_iff.1 hi).1
    exact (h.value_iff y).2 (g key lits x y hc pair i lt hi).1
  cases va : s.litValue? a with
  | some value =>
    cases value with
    | true => exact .inl ⟨a, ha, va⟩
    | false => exact .inl ⟨b, hb, made_good (.inl ⟨first, second⟩) va⟩
  | none =>
    cases vb : s.litValue? b with
    | some value =>
      cases value with
      | true => exact .inl ⟨b, hb, vb⟩
      | false => exact .inl ⟨a, ha, made_good (.inr ⟨second, first⟩) vb⟩
    | none =>
      refine .inr ⟨a, ha, b, hb, fun same => ?_, va, vb⟩
      exact absurd (h.clause_inj hc first second (congrArg Lit.atom same)) Nat.zero_ne_one

theorem Guarded.saturated (g : s.Guarded s.trail.literals.size) (h : s.Coherent) : s.Saturated where
  not_false key c hc falsified := by
    rcases g.true_or_open h hc with ⟨l, hl, holds⟩ | ⟨a, ha, -, -, -, free, -⟩
    · rw [falsified l hl] at holds
      cases holds
    · rw [falsified a ha] at free
      cases free
  not_unit key c hc := by
    rintro ⟨l, hl, free, falsified⟩
    have only {m : Lit} (hm : m ∈ c) (open_or_true : s.litValue? m ≠ some false) : m = l := by
      by_contra ne
      exact open_or_true (falsified m hm ne)
    rcases g.true_or_open h hc with ⟨m, hm, holds⟩ | ⟨a, ha, b, hb, ne, freeA, freeB⟩
    · obtain rfl := only hm (by rw [holds]; nofun)
      rw [free] at holds
      cases holds
    · exact ne ((only ha (by rw [freeA]; nofun)).trans (only hb (by rw [freeB]; nofun)).symm)

theorem Searching.saturated_or_falsified (g : Searching assumptions s.trail.head s) (inv : s.Invariant settings clauses)
    (drawn : s.propagate = (conflict, u)) :
    (conflict = none → u.Saturated) ∧ ∀ key, conflict = some key → u.Falsified key := by
  have p := propagate_spec inv.coherent inv.watched drawn
  constructor
  · intro none
    have guarded := p.guarded_all none g.starts_le g.guarded
    rw [p.complete none] at guarded
    exact guarded.saturated p.coherent
  · rintro key rfl
    obtain ⟨c, hc, falsified, current⟩ := p.exists_current (g.grow p.grows (p.guarded _ (Nat.le_refl _) g.guarded))
    exact ⟨c, hc, fun l hl => (p.coherent.false_iff l).2 (falsified l hl), current⟩

/-- After any history a solve comes to its answer in the last of its passes. However far it has come, if propagation
ends without conflict there, no clause is left that is false or forces a literal; if it ends in a conflict, all literals
of its clause are false, and one of them became so at the current level. -/
theorem solve_saturates (settings : Settings) (ops : List Operation) (legal : (State.new settings).Legal ops)
    (assumptions : List Lit) (known : ∀ a ∈ assumptions, ((State.new settings).run ops).HasAtom a.atom)
    (deadline : Deadline) :
    (((State.new settings).run ops).refuted = false → ∃ passes t,
      ((State.new settings).run ops).afterPasses assumptions deadline passes = some t ∧
        pass assumptions deadline t = .inl (((State.new settings).run ops).solve assumptions deadline)) ∧
    ∀ (passes : Nat) (t u : State) (conflict : Option Nat),
      ((State.new settings).run ops).afterPasses assumptions deadline passes = some t →
      t.propagate = (conflict, u) →
        (conflict = none → u.Saturated) ∧ ∀ key, conflict = some key → u.Falsified key := by
  obtain ⟨inv, settled⟩ := history_spec settings legal
  refine ⟨exists_last_pass inv settled known deadline, fun passes t u conflict comes drawn => ?_⟩
  obtain ⟨inv', g, -⟩ := afterPasses_spec inv settled known comes
  exact g.saturated_or_falsified inv' drawn

theorem solve_saturates_entangled : ∃ t u t' u',
    ((State.new {}).run entangled).afterPasses [⟨1, true⟩, ⟨2, true⟩, ⟨7, true⟩, ⟨3, true⟩] .never 4 = some t ∧
      t.propagate = (some 1, u) ∧ u.Falsified 1 ∧
      ((State.new {}).run entangled).afterPasses [⟨1, true⟩, ⟨2, true⟩, ⟨7, true⟩, ⟨3, true⟩] .never 5 = some t' ∧
      t'.propagate = (none, u') ∧ u'.trail.level = 2 ∧
      u'.clauses.back? = some #[⟨3, false⟩, ⟨2, false⟩, ⟨1, false⟩] ∧ u'.Saturated := by
  set after := ((State.new {}).run entangled).afterPasses [⟨1, true⟩, ⟨2, true⟩, ⟨7, true⟩, ⟨3, true⟩] .never with eq
  have fourth : (after 4).map (fun t => t.propagate.1) = some (some 1) := by
    rw [eq]
    decide +kernel
  have fifth : (after 5).map (fun t => (t.propagate.1, t.propagate.2.trail.level, t.propagate.2.clauses.back?)) =
      some (none, 2, some #[⟨3, false⟩, ⟨2, false⟩, ⟨1, false⟩]) := by
    rw [eq]
    decide +kernel
  obtain ⟨t, comes, conflict⟩ := Option.map_eq_some_iff.1 fourth
  obtain ⟨t', comes', found⟩ := Option.map_eq_some_iff.1 fifth
  simp only [Prod.mk.injEq] at found
  obtain ⟨none, level, learnt⟩ := found
  have legal : (State.new {}).Legal entangled := by decide +kernel
  have known : ∀ a ∈ [(⟨1, true⟩ : Lit), ⟨2, true⟩, ⟨7, true⟩, ⟨3, true⟩],
      ((State.new {}).run entangled).HasAtom a.atom := by decide +kernel
  obtain ⟨-, saturates⟩ := solve_saturates {} entangled legal _ known .never
  obtain ⟨-, falsified⟩ := saturates 4 t _ _ comes rfl
  obtain ⟨saturated, -⟩ := saturates 5 t' _ _ comes' rfl
  exact ⟨t, _, t', _, comes, Prod.ext conflict rfl, falsified 1 conflict, comes', Prod.ext none rfl, level, learnt,
    saturated none⟩

end Defeasible.Search.State
