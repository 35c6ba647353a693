import Defeasible.Counting.Counter
import Defeasible.Proofs.Counting.Models
import Defeasible.Proofs.Session

/-! Enumeration counts every model once: the clause that blocks a model fails in this one and in no other, so each
solve leaves one model less, and there are none left when it finds none. -/

namespace Defeasible

namespace Query

variable {α β : Type} {q : Query α} {f : α → Query β} {P : α → Prop} {Q : β → Prop} {E : Error → Prop}

def Attains (q : Query α) (P : α → Prop) (E : Error → Prop) : Prop :=
  ∀ s : Session, ∃ s', s'.cache = s.cache ∧
    ((∃ a, q.run s = (.ok a, s') ∧ P a) ∨ ∃ e, q.run s = (.error e, s') ∧ E e)

namespace Attains

protected theorem pure {a : α} (h : P a) : (pure a : Query α).Attains P E :=
  fun s => ⟨s, rfl, .inl ⟨a, rfl, h⟩⟩

protected theorem throw {e : Error} (h : E e) : (throw e : Query α).Attains P E :=
  fun s => ⟨s, rfl, .inr ⟨e, rfl, h⟩⟩

protected theorem bind (attains : q.Attains P E) (rest : ∀ a, P a → (f a).Attains Q E) :
    (q >>= f).Attains Q E := by
  intro s
  rw [run_bind]
  obtain ⟨s₁, kept, ⟨a, run, h⟩ | ⟨e, run, h⟩⟩ := attains s
  · obtain ⟨s₂, kept', outcome⟩ := rest a h s₁
    rw [run]
    exact ⟨s₂, kept'.trans kept, outcome⟩
  · rw [run]
    exact ⟨s₁, kept, .inr ⟨e, rfl, h⟩⟩

theorem mapM {f : α → Query β} {g : α → β} {as : List α} (each : ∀ a ∈ as, (f a).Attains (· = g a) E) :
    (as.mapM f).Attains (· = as.map g) E := by
  induction as with
  | nil => exact .pure rfl
  | cons a as ih =>
    rw [List.mapM_cons]
    refine (each a List.mem_cons_self).bind fun b first => ?_
    refine (ih fun c hc => each c (List.mem_cons_of_mem a hc)).bind fun bs rest => .pure ?_
    rw [first, rest, List.map_cons]

theorem imp_error {E' : Error → Prop} (attains : q.Attains P E) (imp : ∀ e, E e → E' e) : q.Attains P E' := by
  intro s
  obtain ⟨s', kept, found | ⟨e, run, h⟩⟩ := attains s
  · exact ⟨s', kept, .inl found⟩
  · exact ⟨s', kept, .inr ⟨e, run, imp e h⟩⟩

theorem meets (attains : q.Attains P E) : q.Meets P E := by
  intro s truthful
  obtain ⟨s', kept, outcome⟩ := attains s
  have truthful' : s'.Truthful := fun e he => truthful e (kept ▸ he)
  rcases outcome with ⟨a, run, h⟩ | ⟨e, run, h⟩
  · exact .inl ⟨a, s', run, truthful', h⟩
  · exact .inr ⟨e, s', run, truthful', h⟩

end Attains

theorem nextWatch_attains : nextWatch.Attains (fun _ => True) E :=
  fun s => ⟨{ s with solves := s.solves + 1 }, rfl, .inl ⟨s.watches s.solves, rfl, trivial⟩⟩

end Query

namespace Counter

open Query (Attains)

variable {atoms : List Literal} {witness : Witness} {clauses : List Clause} {v : Finset Literal}
  {settings : Settings} {solver : Solver} {fuel count : Nat}

/-! ### Blocking -/

def trueAtoms (atoms : List Literal) (witness : Witness) : Finset Literal :=
  atoms.toFinset.filter fun p => witness.has p

theorem trueAtoms_mem_models (within : atomsOf clauses ⊆ atoms.toFinset)
    (holds : ∀ c ∈ clauses, c.Holds witness.world) : trueAtoms atoms witness ∈ models atoms.toFinset clauses := by
  refine mem_models.2 ⟨Finset.filter_subset _ _, fun c hc => ?_⟩
  refine (Clause.holds_congr fun l hl => ?_).1 (holds c hc)
  have occurs := within (positive_mem_atomsOf hc hl)
  rw [World.ofAtoms, trueAtoms, Bool.eq_iff_iff, decide_eq_true_iff, Finset.mem_filter, and_iff_right occurs]
  exact Iff.rfl

theorem mem_blocking {l : Literal} :
    l ∈ blocking atoms witness ↔ ∃ p ∈ atoms, (if witness.has p then p.negate else p) = l :=
  OrdSet.mem_ofList.trans List.mem_map

theorem positive_mem_of_mem_blocking (positive : ∀ p ∈ atoms, p.positive = p) {l : Literal}
    (hl : l ∈ blocking atoms witness) : l.positive ∈ atoms := by
  obtain ⟨p, hp, rfl⟩ := mem_blocking.1 hl
  split
  · exact (positive p hp).symm ▸ hp
  · exact (positive p hp).symm ▸ hp

theorem holds_blocking (positive : ∀ p ∈ atoms, p.positive = p) (within : v ⊆ atoms.toFinset) :
    (blocking atoms witness).Holds (.ofAtoms v) ↔ v ≠ trueAtoms atoms witness := by
  -- An atom disagrees with the witness just where its literal of the clause holds.
  have disagrees (p : Literal) (hp : p ∈ atoms) :
      (if witness.has p then p.negate else p).Holds (.ofAtoms v) ↔ ¬ (p ∈ v ↔ witness.has p = true) := by
    have polarity : p.polarity = true := congrArg Literal.polarity (positive p hp).symm
    have holds : p.Holds (.ofAtoms v) ↔ p ∈ v := by
      rw [Literal.Holds, positive p hp, polarity, World.ofAtoms, decide_eq_true_iff]
    split
    · next has => rw [Literal.holds_negate, holds, iff_true_right has]
    · next has => rw [holds, iff_false_right has, not_not]
  have same : v = trueAtoms atoms witness ↔ ∀ p ∈ atoms, (p ∈ v ↔ witness.has p = true) := by
    rw [Finset.ext_iff]
    refine ⟨fun same p hp => ?_, fun same p => ?_⟩
    · rw [same p, trueAtoms, Finset.mem_filter, and_iff_right (List.mem_toFinset.2 hp)]
    · rw [trueAtoms, Finset.mem_filter]
      constructor
      · exact fun hv => ⟨within hv, (same p (List.mem_toFinset.1 (within hv))).1 hv⟩
      · exact fun h => (same p (List.mem_toFinset.1 h.1)).2 h.2
  rw [Ne, same, not_forall]
  constructor
  · rintro ⟨l, hl, holds⟩
    obtain ⟨p, hp, rfl⟩ := mem_blocking.1 hl
    exact ⟨p, fun agrees => (disagrees p hp).1 holds (agrees hp)⟩
  · rintro ⟨p, differs⟩
    obtain ⟨hp, differs⟩ := Classical.not_imp.1 differs
    exact ⟨_, mem_blocking.2 ⟨p, hp, rfl⟩, (disagrees p hp).2 differs⟩

theorem models_blocking (positive : ∀ p ∈ atoms, p.positive = p) :
    models atoms.toFinset (clauses ++ [blocking atoms witness]) =
      (models atoms.toFinset clauses).erase (trueAtoms atoms witness) := by
  ext v
  rw [Finset.mem_erase, mem_models, mem_models, List.forall_mem_append, List.forall_mem_singleton]
  constructor
  · exact fun ⟨within, holds, differs⟩ => ⟨(holds_blocking positive within).1 differs, within, holds⟩
  · exact fun ⟨differs, within, holds⟩ => ⟨within, holds, (holds_blocking positive within).2 differs⟩

/-! ### Counting -/

theorem countFrom_attains (probable : settings.Probable) (positive : ∀ p ∈ atoms, p.positive = p)
    (numbered : solver.numbering.literals = atoms) (ready : solver.Ready settings clauses [])
    (enough : (models atoms.toFinset clauses).card < fuel) :
    (countFrom atoms fuel solver count).Attains (· = count + (models atoms.toFinset clauses).card)
      settings.CutsShort := by
  induction fuel generalizing clauses solver count with
  | zero => exact absurd enough (Nat.not_lt_zero _)
  | succ fuel ih =>
    rw [countFrom]
    refine Query.nextWatch_attains.bind fun watch _ => ?_
    have nothing : ∀ l ∈ ([] : List Literal), solver.numbering.Has l := nofun
    obtain ⟨result, solver', run, same, left, settled⟩ := ready.solveAssuming_within probable nothing watch
    rw [Solver.solve, run]
    dsimp only
    rcases settled with ⟨answer, rfl, settles⟩ | ⟨e, rfl, cut⟩
    · rw [Query.ofExcept_ok, pure_bind]
      cases answer with
      | none =>
        have none_left : models atoms.toFinset clauses = ∅ := by
          refine Finset.eq_empty_of_forall_notMem fun v hv => ?_
          exact settles _ (mem_models.1 hv).2 nofun
        refine .pure ?_
        rw [none_left, Finset.card_empty, Nat.add_zero]
      | some witness =>
        have within : atomsOf clauses ⊆ atoms.toFinset := by
          intro p hp
          obtain ⟨c, hc, l, hl, rfl⟩ := mem_atomsOf.1 hp
          rw [List.mem_toFinset, ← numbered]
          exact ready.has_hard c hc l hl
        have found := trueAtoms_mem_models within settles.1
        have fewer : (models atoms.toFinset (clauses ++ [blocking atoms witness])).card + 1 =
            (models atoms.toFinset clauses).card := by
          rw [models_blocking positive, Finset.card_erase_add_one found]
        have numbered' : solver'.numbering.literals = atoms := by rw [same, numbered]
        have has : ∀ l ∈ blocking atoms witness, solver'.numbering.Has l := by
          intro l hl
          rw [Numbering.Has, numbered']
          exact positive_mem_of_mem_blocking positive hl
        obtain ⟨solver'', added, kept, ready'⟩ := left.addClause has
        dsimp only
        rw [added, Query.ofExcept_ok, pure_bind, ← fewer]
        have rest := @ih _ solver'' (count + 1) (by rw [kept, numbered']) ready' (by omega)
        rwa [Nat.add_assoc, Nat.add_comm 1] at rest
    · exact Attains.bind (P := fun _ => False) (.throw cut) fun _ => False.elim

theorem mem_literals_of_new (made : Solver.new clauses [] settings = .ok solver) (p : Literal) :
    p ∈ solver.numbering.literals ↔ p ∈ atomsOf clauses := by
  obtain ⟨n, registered, registers⟩ := Numbering.registerClauses_spec (n := {}) (Solver.of_new made).1
  have numbering : solver.numbering = n := by
    unfold Solver.new at made
    dsimp only [bind, Except.bind, Solver.registerSoft] at made
    rw [registered] at made
    dsimp only at made
    cases hard : clauses.mapM n.clause with
    | error e =>
      rw [hard] at made
      cases made
    | ok hard' =>
      rw [hard] at made
      cases made
      rfl
  rw [numbering, registers.mem_iff, or_iff_right List.not_mem_nil, mem_atomsOf_iff]

theorem enumeration_attains (probable : settings.Probable) (ground : ∀ c ∈ clauses, c.isGround = true) :
    (enumeration settings clauses).Attains (· = modelCount clauses) settings.CutsShort := by
  obtain ⟨solver, made, ready, -⟩ := Solver.new_spec clauses [] settings ground nofun nofun
  have mem := mem_literals_of_new made
  have atoms : solver.numbering.literals.toFinset = atomsOf clauses := by
    ext p
    rw [List.mem_toFinset, mem]
  have positive : ∀ p ∈ solver.numbering.literals, p.positive = p := by
    intro p hp
    obtain ⟨c, -, l, -, rfl⟩ := mem_atomsOf.1 ((mem p).1 hp)
    rfl
  have enough : (models solver.numbering.literals.toFinset clauses).card <
      Nat.pow 2 solver.numbering.size + 1 := by
    refine Nat.lt_succ_of_le ((card_models_le _ _).trans ?_)
    exact Nat.pow_le_pow_right Nat.two_pos (List.toFinset_card_le _)
  have counted := @countFrom_attains _ _ settings solver _ 0 probable positive rfl ready enough
  rw [Nat.zero_add, atoms] at counted
  unfold enumeration
  rw [made, Query.ofExcept_ok, pure_bind]
  exact counted

/-- Enumeration ends, with the number of valuations of the atoms that satisfy all clauses. -/
theorem enumeration_exact (settings : Settings) (probable : settings.Probable)
    (untimed : settings.solveLimit? = none) (clauses : List Clause) (ground : ∀ c ∈ clauses, c.isGround = true)
    (s : Session) :
    ∃ s', (enumeration settings clauses).run s = (.ok (modelCount clauses), s') := by
  obtain ⟨s', -, ⟨n, run, rfl⟩ | ⟨e, -, cut⟩⟩ := enumeration_attains probable ground s
  · exact ⟨s', run⟩
  · exact absurd untimed cut.hinders.limited

theorem enumeration_exact_repeated : ∃ s',
    (enumeration {} [.ofList [⟨"a", [], true⟩, ⟨"b", [], true⟩], .ofList [⟨"a", [], false⟩, ⟨"a", [], true⟩],
      .ofList [⟨"a", [], true⟩, ⟨"b", [], true⟩]]).run {} = (.ok 3, s') := by
  have three : modelCount [.ofList [⟨"a", [], true⟩, ⟨"b", [], true⟩],
      .ofList [⟨"a", [], false⟩, ⟨"a", [], true⟩], .ofList [⟨"a", [], true⟩, ⟨"b", [], true⟩]] = 3 := by
    decide +kernel
  rw [← three]
  exact enumeration_exact {} Settings.probable_default rfl _ (by decide +kernel) {}

end Counter

end Defeasible
