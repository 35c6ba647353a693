import Defeasible.Proofs.Ground.World
import Defeasible.Proofs.Search.Incremental

/-! A numbering keeps the meaning of literals: a literal holds in a world just where its number does in the
valuation of the world, and a witness read off a model has the meaning of the model. -/

namespace Defeasible.Numbering

open Search

variable {n n' n'' : Numbering} {e : EngineError}

def Has (n : Numbering) (l : Literal) : Prop := l.positive ∈ n.literals

instance (n : Numbering) (l : Literal) : Decidable (n.Has l) :=
  inferInstanceAs (Decidable (l.positive ∈ n.literals))

theorem atom?_of_not_has {l : Literal} (new : ¬ n.Has l) : n.atom? l = none := by
  rw [atom?, List.idxOf?_eq_none_iff.2 new, Option.map_none]

theorem literal?_of_atom? {l : Literal} {atom : Atom} (h : n.atom? l = some atom) :
    n.literal? atom = some l.positive := by
  obtain ⟨i, found, rfl⟩ := Option.map_eq_some_iff.1 h
  obtain ⟨lt, same, -⟩ := List.idxOf?_eq_some_iff.1 found
  have same : n.literals[i] = l.positive := by simpa using same
  rw [literal?, List.getElem?_eq_getElem lt, same]

theorem exists_atom {l : Literal} (has : n.Has l) :
    ∃ atom, n.atom? l = some atom ∧ 0 < atom ∧ atom ≤ n.size := by
  cases found : n.literals.idxOf? l.positive with
  | none => exact absurd has (List.idxOf?_eq_none_iff.1 found)
  | some i =>
    obtain ⟨lt, -⟩ := List.idxOf?_eq_some_iff.1 found
    exact ⟨i + 1, by rw [atom?, found]; rfl, Nat.succ_pos i, lt⟩

theorem exists_lit {l : Literal} (has : n.Has l) :
    ∃ x, n.lit? l = some x ∧ 0 < x.atom ∧ x.atom ≤ n.size := by
  obtain ⟨atom, found, range⟩ := exists_atom has
  exact ⟨⟨atom, l.polarity⟩, by rw [lit?, found]; rfl, range⟩

theorem lit?_of_not_has {l : Literal} (new : ¬ n.Has l) : n.lit? l = none := by
  rw [lit?, atom?_of_not_has new, Option.map_none]

theorem literal?_inj (nodup : n.literals.Nodup) {a b : Atom} {l : Literal} (ha : n.literal? a = some l)
    (hb : n.literal? b = some l) : a = b := by
  cases a with
  | zero => cases ha
  | succ i =>
    cases b with
    | zero => cases hb
    | succ j =>
      have lt := (List.getElem?_eq_some_iff.1 ha).1
      rw [(List.getElem?_inj lt nodup).1 (ha.trans hb.symm)]

/-! ### Registering -/

structure Registers (n : Numbering) (ls : List Literal) (n' : Numbering) : Prop where
  nodup : n.literals.Nodup → n'.literals.Nodup
  mem_iff : ∀ p, p ∈ n'.literals ↔ p ∈ n.literals ∨ ∃ l ∈ ls, l.positive = p

theorem Registers.refl (n : Numbering) : Registers n [] n := ⟨id, fun p => by simp⟩

theorem Registers.trans {ls ms : List Literal} (r : Registers n ls n') (r' : Registers n' ms n'') :
    Registers n (ls ++ ms) n'' := by
  refine ⟨fun nodup => r'.nodup (r.nodup nodup), fun p => ?_⟩
  simp only [r'.mem_iff, r.mem_iff, List.mem_append, or_and_right, exists_or, or_assoc]

theorem register_spec {l : Literal} (ground : l.isGround = true) :
    ∃ atom n', n.register l = (.ok atom, n') ∧ Registers n [l] n' := by
  unfold register
  rw [ground]
  by_cases has : n.Has l
  · obtain ⟨atom, found, -⟩ := exists_atom has
    refine ⟨atom, n, by rw [found]; rfl, id, fun p => ?_⟩
    simp only [List.mem_singleton, exists_eq_left]
    exact ⟨.inl, fun h => h.elim id fun h => h ▸ has⟩
  · refine ⟨n.size + 1, ⟨n.literals ++ [l.positive]⟩, by rw [atom?_of_not_has has]; rfl, ?_, fun p => ?_⟩
    · intro nodup
      refine List.nodup_append.2 ⟨nodup, List.nodup_singleton _, fun a ha b hb same => has ?_⟩
      rw [List.mem_singleton.1 hb] at same
      rwa [Has, ← same]
    · simp [eq_comm]

theorem registerAll_spec {ls : List Literal} (ground : ∀ l ∈ ls, l.isGround = true) :
    ∃ n', n.registerAll ls = (.ok (), n') ∧ Registers n ls n' := by
  induction ls generalizing n with
  | nil => exact ⟨n, rfl, .refl n⟩
  | cons l ls ih =>
    obtain ⟨atom, t, run, registers⟩ := register_spec (n := n) (ground l List.mem_cons_self)
    obtain ⟨n', rest, registers'⟩ := ih (n := t) fun m hm => ground m (List.mem_cons_of_mem l hm)
    exact ⟨n', by rw [registerAll, run]; exact rest, registers.trans registers'⟩

theorem registerAll_ok {ls : List Literal} (run : n.registerAll ls = (.ok (), n')) :
    ∀ l ∈ ls, l.isGround = true := by
  induction ls generalizing n with
  | nil => exact fun l hl => absurd hl List.not_mem_nil
  | cons l ls ih =>
    by_cases ground : l.isGround = true
    · obtain ⟨atom, t, first, -⟩ := register_spec (n := n) ground
      rw [registerAll, first] at run
      exact List.forall_mem_cons.2 ⟨ground, ih run⟩
    · rw [registerAll, register, Bool.eq_false_iff.2 ground] at run
      cases run

theorem registerClauses_spec {cs : List Clause} (ground : ∀ c ∈ cs, c.isGround = true) :
    ∃ n', n.registerClauses cs = .ok n' ∧ Registers n (cs.flatMap Clause.toList) n' := by
  induction cs generalizing n with
  | nil => exact ⟨n, rfl, .refl n⟩
  | cons c cs ih =>
    obtain ⟨t, run, registers⟩ :=
      registerAll_spec (n := n) (List.all_eq_true.1 (ground c List.mem_cons_self))
    obtain ⟨n', rest, registers'⟩ := ih (n := t) fun d hd => ground d (List.mem_cons_of_mem c hd)
    refine ⟨n', ?_, registers.trans registers'⟩
    rw [registerClauses, registerClause, run]
    exact rest

theorem registerClauses_ok {cs : List Clause} (run : n.registerClauses cs = .ok n') :
    ∀ c ∈ cs, c.isGround = true := by
  induction cs generalizing n with
  | nil => exact fun c hc => absurd hc List.not_mem_nil
  | cons c cs ih =>
    rw [registerClauses, registerClause] at run
    split at run
    · cases run
    · next t first =>
      exact List.forall_mem_cons.2 ⟨List.all_eq_true.2 (registerAll_ok first), ih run⟩

theorem registerAll_error {ls : List Literal} (failed : (n.registerAll ls).1 = .error e) :
    ∃ l ∈ ls, l.isGround = false ∧ e = .nonGroundLiteral l := by
  induction ls generalizing n with
  | nil => cases failed
  | cons l ls ih =>
    cases ground : l.isGround with
    | true =>
      obtain ⟨atom, n', registered, -⟩ := register_spec (n := n) ground
      rw [registerAll, registered] at failed
      obtain ⟨m, hm, found⟩ := ih failed
      exact ⟨m, List.mem_cons_of_mem l hm, found⟩
    | false =>
      rw [registerAll, register, ground] at failed
      cases failed
      exact ⟨l, List.mem_cons_self, ground, rfl⟩

theorem registerClauses_error {cs : List Clause} (failed : n.registerClauses cs = .error e) :
    ∃ c ∈ cs, ∃ l ∈ c, l.isGround = false ∧ e = .nonGroundLiteral l := by
  induction cs generalizing n with
  | nil => cases failed
  | cons c cs ih =>
    rw [registerClauses] at failed
    split at failed
    · next first =>
      cases failed
      exact ⟨c, List.mem_cons_self, registerAll_error (congrArg Prod.fst first)⟩
    · obtain ⟨d, hd, found⟩ := ih failed
      exact ⟨d, List.mem_cons_of_mem c hd, found⟩

/-! ### Numbers of clauses -/

def encode (n : Numbering) (ls : List Literal) : List Lit := ls.filterMap n.lit?

theorem lits_cons (n : Numbering) (l : Literal) (ls : List Literal) :
    n.lits (l :: ls) = match n.lit? l with
      | none => .error (.unindexedLiteral l)
      | some x => (n.lits ls).map (x :: ·) := by
  rw [lits, List.mapM_cons]
  cases n.lit? l with
  | none => rfl
  | some x =>
    show ((n.lits ls).bind fun rest => .ok (x :: rest)) = (n.lits ls).map (x :: ·)
    cases n.lits ls <;> rfl

theorem lits_of_has {ls : List Literal} (has : ∀ l ∈ ls, n.Has l) : n.lits ls = .ok (n.encode ls) := by
  induction ls with
  | nil => rfl
  | cons l ls ih =>
    obtain ⟨x, lit, -⟩ := exists_lit (has l List.mem_cons_self)
    rw [lits_cons, lit, ih fun m hm => has m (List.mem_cons_of_mem l hm), encode, encode,
      List.filterMap_cons, lit]
    rfl

theorem lits_of_not_has {ls : List Literal} (missing : ∃ l ∈ ls, ¬ n.Has l) :
    ∃ l ∈ ls, ¬ n.Has l ∧ n.lits ls = .error (.unindexedLiteral l) := by
  induction ls with
  | nil => simp at missing
  | cons l ls ih =>
    by_cases has : n.Has l
    · obtain ⟨m, hm, new, fails⟩ := ih (by simpa [has] using missing)
      obtain ⟨x, lit, -⟩ := exists_lit has
      exact ⟨m, List.mem_cons_of_mem l hm, new, by rw [lits_cons, lit, fails]; rfl⟩
    · exact ⟨l, List.mem_cons_self, has, by rw [lits_cons, lit?_of_not_has has]⟩

theorem literalOf?_of_lit? {l : Literal} {x : Lit} (found : n.lit? l = some x) :
    n.literalOf? x = some l := by
  obtain ⟨atom, known, rfl⟩ := Option.map_eq_some_iff.1 found
  rw [literalOf?, literal?_of_atom? known, Option.map_some]
  rcases l with ⟨predicate, arguments, _ | _⟩ <;> rfl

theorem map_literalOf?_encode {ls : List Literal} (has : ∀ l ∈ ls, n.Has l) :
    (n.encode ls).map n.literalOf? = ls.map some := by
  induction ls with
  | nil => rfl
  | cons l ls ih =>
    obtain ⟨known, rest⟩ := List.forall_mem_cons.1 has
    obtain ⟨x, found, -⟩ := exists_lit known
    rw [encode, List.filterMap_cons, found, List.map_cons, List.map_cons, literalOf?_of_lit? found, ← ih rest, encode]

theorem over_encode (n : Numbering) (ls : List Literal) : Over n.size (n.encode ls) := by
  intro x hx
  obtain ⟨l, -, lit⟩ := List.mem_filterMap.1 hx
  have known : n.Has l := by
    by_contra new
    rw [lit?_of_not_has new] at lit
    cases lit
  obtain ⟨y, found, range⟩ := exists_lit known
  obtain rfl := Option.some.inj (lit.symm.trans found)
  exact range

def encodeAll (n : Numbering) (cs : List Clause) : List (List Lit) := cs.map fun c => n.encode c.toList

theorem over_encodeAll (n : Numbering) (cs : List Clause) : ∀ c ∈ n.encodeAll cs, Over n.size c := by
  intro c hc
  obtain ⟨d, -, rfl⟩ := List.mem_map.1 hc
  exact n.over_encode d.toList

/-! ### Meaning -/

def valuation (n : Numbering) (w : World) : Valuation := fun atom => (n.literal? atom).any w

def Agrees (n : Numbering) (v : Valuation) (w : World) : Prop :=
  ∀ l x, n.lit? l = some x → (x.Holds v ↔ l.Holds w)

theorem agrees_valuation (n : Numbering) (w : World) : n.Agrees (n.valuation w) w := by
  intro l x lit
  obtain ⟨atom, found, rfl⟩ := Option.map_eq_some_iff.1 lit
  rw [Lit.Holds, Literal.Holds, valuation, literal?_of_atom? found, Option.any_some]

theorem agrees_witness (nodup : n.literals.Nodup) (model : List Lit) :
    n.Agrees (Valuation.ofModel model) (Solver.witness n model).world := by
  intro l x lit
  obtain ⟨atom, found, rfl⟩ := Option.map_eq_some_iff.1 lit
  have mem : (Solver.witness n model).has l.positive = true ↔ ⟨atom, true⟩ ∈ model := by
    rw [OrdSet.has_eq_true, Solver.witness, OrdSet.mem_ofList]
    simp only [List.mem_filterMap, List.mem_filter]
    constructor
    · rintro ⟨⟨a, b⟩, ⟨mem, positive⟩, same⟩
      obtain rfl := literal?_inj nodup same (literal?_of_atom? found)
      obtain rfl : b = true := positive
      exact mem
    · exact fun mem => ⟨⟨atom, true⟩, ⟨mem, rfl⟩, literal?_of_atom? found⟩
  have same : Valuation.ofModel model atom = (Solver.witness n model).world l.positive :=
    Bool.eq_iff_iff.2 (decide_eq_true_iff.trans mem.symm)
  rw [Lit.Holds, Literal.Holds, same]

section Meaning

variable {w : World} {v : Valuation} {ls : List Literal} {cs : List Clause} (agrees : n.Agrees v w)

include agrees

theorem satisfies_encode (has : ∀ l ∈ ls, n.Has l) : Satisfies v (n.encode ls) ↔ ∃ l ∈ ls, l.Holds w := by
  constructor
  · rintro ⟨x, hx, hv⟩
    obtain ⟨l, hl, lit⟩ := List.mem_filterMap.1 hx
    exact ⟨l, hl, (agrees l x lit).1 hv⟩
  · rintro ⟨l, hl, hw⟩
    obtain ⟨x, lit, -⟩ := exists_lit (has l hl)
    exact ⟨x, List.mem_filterMap.2 ⟨l, hl, lit⟩, (agrees l x lit).2 hw⟩

theorem forall_encode (has : ∀ l ∈ ls, n.Has l) : (∀ x ∈ n.encode ls, x.Holds v) ↔ ∀ l ∈ ls, l.Holds w := by
  constructor
  · intro h l hl
    obtain ⟨x, lit, -⟩ := exists_lit (has l hl)
    exact (agrees l x lit).1 (h x (List.mem_filterMap.2 ⟨l, hl, lit⟩))
  · intro h x hx
    obtain ⟨l, hl, lit⟩ := List.mem_filterMap.1 hx
    exact (agrees l x lit).2 (h l hl)

theorem models_encodeAll (has : ∀ c ∈ cs, ∀ l ∈ c, n.Has l) :
    Models v (n.encodeAll cs) ↔ ∀ c ∈ cs, c.Holds w := by
  rw [Models, encodeAll, List.forall_mem_map]
  exact forall₂_congr fun c hc => satisfies_encode agrees (has c hc)

end Meaning

end Defeasible.Numbering
