import Defeasible.Ground.Index
import Defeasible.Proofs.Ground.Numbering

/-! An index and its two tables. Whatever is registered, and whatever fails to be, the tables are inverse to each other,
no number ever changes its literal, and the index answers as the numbering of its literals does. -/

namespace Defeasible

open Search

theorem Literal.positive_of_polarity {l : Literal} (positive : l.polarity = true) : l.positive = l := by
  rcases l with ⟨predicate, arguments, polarity⟩
  obtain rfl : polarity = true := positive
  rfl

theorem Literal.negate_of_polarity {l : Literal} (negative : l.polarity = false) : l.negate = l.positive := by
  rcases l with ⟨predicate, arguments, polarity⟩
  obtain rfl : polarity = false := negative
  rfl

namespace Index

variable {i i' : Index} {n : Numbering} {l : Literal} {a b : Nat} {ls : List Literal} {c : Clause}

def numbering (i : Index) : Numbering := ⟨i.literals.toList⟩

inductive Call
  | register (l : Literal)
  | registerClause (c : Clause)

def perform (i : Index) : Call → Index
  | .register l => (i.register l).2
  | .registerClause c => (i.registerClause c).2

def run (i : Index) (calls : List Call) : Index := calls.foldl perform i

def Call.number (n : Numbering) : Call → Numbering
  | .register l => (n.register l).2
  | .registerClause c => (n.registerClause c).2

theorem literal?_numbering (i : Index) (a : Nat) : i.numbering.literal? a = i.literal? a := by
  cases a with
  | zero => rfl
  | succ a => exact Array.getElem?_toList

theorem literalOf?_numbering (i : Index) (x : Lit) : i.numbering.literalOf? x = i.literalOf? x := by
  rw [Numbering.literalOf?, literal?_numbering]
  rfl

theorem atom?_eq (i : Index) (l : Literal) : i.atom? l = i.atoms.lookup l.positive := by
  rw [atom?]
  cases polarity : l.polarity with
  | true => rw [if_pos rfl, Literal.positive_of_polarity polarity]
  | false => rw [if_neg Bool.false_ne_true, Literal.negate_of_polarity polarity]

theorem atom?_negate (i : Index) (l : Literal) : i.atom? l.negate = i.atom? l := by
  rw [atom?_eq, atom?_eq]
  rfl

theorem exists_literal? (i : Index) (a : Nat) : (∃ l, i.literal? a = some l) ↔ 1 ≤ a ∧ a ≤ i.size := by
  cases a with
  | zero => simp [literal?]
  | succ a =>
    have within : (∃ l, i.literals[a]? = some l) ↔ a < i.literals.size :=
      ⟨fun ⟨l, found⟩ => (Array.getElem?_eq_some_iff.1 found).1, fun lt => ⟨_, Array.getElem?_eq_getElem lt⟩⟩
    rw [literal?, within, size]
    omega

theorem le_size_of_literal? (found : i.literal? a = some l) : a ≤ i.size := ((exists_literal? i a).1 ⟨l, found⟩).2

/-! ### The tables -/

structure Matched (i : Index) : Prop where
  lookup_iff : ∀ (l : Literal) (a : Nat), i.atoms.lookup l = some a ↔ i.literal? a = some l
  positive : ∀ l ∈ i.literals, l.polarity = true
  ground : ∀ l ∈ i.literals, l.isGround = true

theorem matched_empty : Matched {} where
  lookup_iff l a := by cases a <;> simp [literal?]
  positive l mem := by simp at mem
  ground l mem := by simp at mem

theorem Matched.literal?_inj (h : i.Matched) (at_a : i.literal? a = some l) (at_b : i.literal? b = some l) : a = b :=
  Option.some.inj (((h.lookup_iff l a).2 at_a).symm.trans ((h.lookup_iff l b).2 at_b))

theorem mem_of_literal? (found : i.literal? a = some l) : l ∈ i.literals := by
  cases a with
  | zero => cases found
  | succ a => exact Array.mem_of_getElem? found

theorem lookup_cons_eq (atoms : List (Literal × Nat)) (l m : Literal) (a : Nat) :
    List.lookup m ((l, a) :: atoms) = if m = l then some a else atoms.lookup m := by
  rw [List.lookup_cons]
  by_cases same : m = l
  · rw [if_pos same, same, beq_self_eq_true]
  · rw [if_neg same, beq_false_of_ne same]

inductive Registers (i : Index) (l : Literal) : Except EngineError Nat → Index → Prop
  | failed (open' : l.isGround = false) : Registers i l (.error (.nonGroundLiteral l)) i
  | known (a : Nat) (ground : l.isGround = true) (found : i.atoms.lookup l.positive = some a) :
    Registers i l (.ok a) i
  | new (ground : l.isGround = true) (missing : i.atoms.lookup l.positive = none) :
    Registers i l (.ok (i.size + 1)) ⟨(l.positive, i.size + 1) :: i.atoms, i.literals.push l.positive⟩

theorem register_spec (i : Index) (l : Literal) : Registers i l (i.register l).1 (i.register l).2 := by
  rw [register]
  cases ground : l.isGround with
  | false => exact .failed ground
  | true =>
    cases found : i.atoms.lookup l.positive with
    | some a => exact .known a ground found
    | none => exact .new ground found

theorem literal?_push (i : Index) (l : Literal) (atoms : List (Literal × Nat)) (a : Nat) :
    literal? ⟨atoms, i.literals.push l⟩ a = if a = i.size + 1 then some l else i.literal? a := by
  cases a with
  | zero => rfl
  | succ a => simp only [literal?, Array.getElem?_push, Nat.succ.injEq, size]

theorem Matched.registers {outcome : Except EngineError Nat} (h : i.Matched) (r : Registers i l outcome i') :
    i'.Matched := by
  cases r with
  | failed => exact h
  | known => exact h
  | new ground missing =>
    refine ⟨fun m a => ?_, fun m mem => ?_, fun m mem => ?_⟩
    · rw [lookup_cons_eq, literal?_push]
      -- neither the literal nor the last number is in the tables yet
      have fresh : i.literal? a = some l.positive → False := fun known => by
        rw [← h.lookup_iff, missing] at known
        cases known
      have free : i.literal? a = some m → a ≠ i.size + 1 := fun found =>
        Nat.ne_of_lt (Nat.lt_succ_of_le (le_size_of_literal? found))
      have old := h.lookup_iff m a
      by_cases same : m = l.positive <;> by_cases last : a = i.size + 1 <;> grind
    · rcases Array.mem_push.1 mem with old | rfl
      · exact h.positive m old
      · rfl
    · rcases Array.mem_push.1 mem with old | rfl
      · exact h.ground m old
      · exact ground

/-! ### Registering -/

def Keeps (i i' : Index) : Prop := ∀ (a : Nat) (l : Literal), i.literal? a = some l → i'.literal? a = some l

theorem Keeps.trans {i'' : Index} (k : Keeps i i') (k' : Keeps i' i'') : Keeps i i'' :=
  fun a l found => k' a l (k a l found)

theorem Registers.keeps {outcome : Except EngineError Nat} (r : Registers i l outcome i') : Keeps i i' := by
  cases r with
  | failed => exact fun _ _ => id
  | known => exact fun _ _ => id
  | new ground missing =>
    intro a m found
    rwa [literal?_push, if_neg (Nat.ne_of_lt (Nat.lt_succ_of_le (le_size_of_literal? found)))]

theorem Matched.atom?_numbering (h : i.Matched) (l : Literal) : i.numbering.atom? l = i.atom? l := by
  rw [atom?_eq]
  cases found : i.atoms.lookup l.positive with
  | some a =>
    have at_a := (h.lookup_iff _ _).1 found
    have has : i.numbering.Has l := Array.mem_toList_iff.2 (mem_of_literal? at_a)
    obtain ⟨b, numbered, -⟩ := Numbering.exists_atom has
    have at_b := Numbering.literal?_of_atom? numbered
    rw [literal?_numbering] at at_b
    rw [numbered, h.literal?_inj at_b at_a]
  | none =>
    refine Numbering.atom?_of_not_has fun has => ?_
    obtain ⟨place, at_place⟩ := Array.mem_iff_getElem?.1 (Array.mem_toList_iff.1 has)
    have known := (h.lookup_iff l.positive (place + 1)).2 at_place
    rw [found] at known
    cases known

theorem Registers.numbering {outcome : Except EngineError Nat} (h : i.Matched) (r : Registers i l outcome i') :
    i.numbering.register l = (outcome, i'.numbering) := by
  have atom := (h.atom?_numbering l).trans (atom?_eq i l)
  rw [Numbering.register, atom]
  cases r with
  | failed open' => rw [open']; rfl
  | known a ground found => rw [ground, found]; rfl
  | new ground missing =>
    rw [ground, missing]
    simp [Index.numbering, Numbering.size, size]

structure Advances (i i' : Index) : Prop where
  matched : i'.Matched
  keeps : Keeps i i'

theorem Advances.trans {i'' : Index} (s : Advances i i') (s' : Advances i' i'') : Advances i i'' :=
  ⟨s'.matched, s.keeps.trans s'.keeps⟩

theorem Matched.advances (h : i.Matched) : Advances i i := ⟨h, fun _ _ => id⟩

theorem Matched.register (h : i.Matched) (l : Literal) :
    Advances i (i.register l).2 ∧ i.numbering.register l = ((i.register l).1, (i.register l).2.numbering) :=
  have r := register_spec i l
  ⟨⟨h.registers r, r.keeps⟩, r.numbering h⟩

theorem Matched.registerAll (h : i.Matched) (ls : List Literal) :
    Advances i (i.registerAll ls).2 ∧
      i.numbering.registerAll ls = ((i.registerAll ls).1, (i.registerAll ls).2.numbering) := by
  induction ls generalizing i with
  | nil => exact ⟨h.advances, rfl⟩
  | cons l ls ih =>
    obtain ⟨first, alike⟩ := h.register l
    rw [Numbering.registerAll, alike, Index.registerAll]
    generalize i.register l = outcome at first ⊢
    obtain ⟨e | a, i'⟩ := outcome
    · exact ⟨first, rfl⟩
    · obtain ⟨rest, alike⟩ := ih first.matched
      exact ⟨first.trans rest, alike⟩

theorem Matched.perform (h : i.Matched) (call : Call) :
    Advances i (i.perform call) ∧ call.number i.numbering = (i.perform call).numbering := by
  cases call with
  | register l =>
    obtain ⟨advances, alike⟩ := h.register l
    exact ⟨advances, congrArg Prod.snd alike⟩
  | registerClause c =>
    obtain ⟨advances, alike⟩ := h.registerAll c.toList
    exact ⟨advances, congrArg Prod.snd alike⟩

theorem Matched.run (h : i.Matched) (calls : List Call) :
    Advances i (i.run calls) ∧ calls.foldl Call.number i.numbering = (i.run calls).numbering := by
  induction calls generalizing i with
  | nil => exact ⟨h.advances, rfl⟩
  | cons call calls ih =>
    obtain ⟨first, alike⟩ := h.perform call
    obtain ⟨rest, alike'⟩ := ih first.matched
    exact ⟨first.trans rest, by rw [List.foldl_cons, alike]; exact alike'⟩

/-! ### What an index tells -/

/-- Numbers and propositions belong together one to one, and the literals of a proposition have its number with opposite
signs. -/
structure OneToOne (i : Index) : Prop where
  numbers : ∀ a : Nat, (∃ l, i.literal? a = some l) ↔ 1 ≤ a ∧ a ≤ i.size
  proposition : ∀ a l, i.literal? a = some l → l.polarity = true ∧ l.isGround = true
  inverse : ∀ a l, i.literal? a = some l ↔ l.polarity = true ∧ i.atom? l = some a
  distinct : ∀ a b l, i.literal? a = some l → i.literal? b = some l → a = b
  negate : ∀ l, i.atom? l.negate = i.atom? l
  int : i.size < 2 ^ 31 → ∀ l a, i.atom? l = some a → i.int? l = some (if l.polarity then (a : Int) else -a)
  int_negate : i.size < 2 ^ 31 → ∀ l, i.int? l.negate = (i.int? l).map fun k => -k
  clause_ok : ∀ c, (∃ lits, i.clause c = .ok lits) ↔ ∀ l ∈ c, ∃ a, i.atom? l = some a
  clause : ∀ c lits, i.clause c = .ok lits → lits.map i.literalOf? = c.toList.map some

theorem Matched.lit?_numbering (h : i.Matched) (l : Literal) : i.numbering.lit? l = i.lit? l := by
  rw [Numbering.lit?, h.atom?_numbering]
  rfl

theorem Matched.clause_eq (h : i.Matched) (c : Clause) : i.clause c = i.numbering.lits c.toList := by
  rw [Index.clause, Numbering.lits]
  refine congrArg (c.toList.mapM ·) (funext fun l => ?_)
  cases found : i.lit? l <;> simp only [h.lit?_numbering, found]

theorem Matched.has_iff (h : i.Matched) (l : Literal) : i.numbering.Has l ↔ ∃ a, i.atom? l = some a := by
  rw [← h.atom?_numbering]
  constructor
  · intro has
    obtain ⟨a, known, -⟩ := Numbering.exists_atom has
    exact ⟨a, known⟩
  · rintro ⟨a, known⟩
    by_contra new
    rw [Numbering.atom?_of_not_has new] at known
    cases known

theorem Matched.clause_ok_iff (h : i.Matched) {lits : List Lit} :
    i.clause c = .ok lits ↔ (∀ l ∈ c, i.numbering.Has l) ∧ i.numbering.encode c.toList = lits := by
  rw [h.clause_eq]
  constructor
  · intro found
    have has : ∀ l ∈ c.toList, i.numbering.Has l := by
      by_contra missing
      obtain ⟨l, -, -, fails⟩ := Numbering.lits_of_not_has (by simpa only [not_forall, exists_prop] using missing)
      rw [fails] at found
      cases found
    rw [Numbering.lits_of_has has] at found
    exact ⟨has, Except.ok.inj found⟩
  · rintro ⟨has, rfl⟩
    exact Numbering.lits_of_has has

theorem Matched.int?_eq (h : i.Matched) (few : i.size < 2 ^ 31) (l : Literal) :
    i.int? l = (i.atom? l).map fun a : Nat => if l.polarity then (a : Int) else -a := by
  have fits (a : Nat) (le : a ≤ i.size) : 2 * a < UInt32.size := by
    change 2 * a < 2 ^ 32
    omega
  rw [int?, lit?]
  cases known : i.atom? l with
  | none => rfl
  | some a =>
    have at_a := (h.lookup_iff _ _).1 ((atom?_eq i l).symm.trans known)
    exact if_pos (fits a (le_size_of_literal? at_a))

theorem Matched.oneToOne (h : i.Matched) : i.OneToOne where
  numbers := exists_literal? i
  proposition a l found := ⟨h.positive l (mem_of_literal? found), h.ground l (mem_of_literal? found)⟩
  inverse a l := by
    rw [atom?_eq]
    constructor
    · intro found
      have positive := h.positive l (mem_of_literal? found)
      rw [Literal.positive_of_polarity positive]
      exact ⟨positive, (h.lookup_iff l a).2 found⟩
    · rintro ⟨positive, known⟩
      rw [Literal.positive_of_polarity positive] at known
      exact (h.lookup_iff l a).1 known
  distinct _ _ _ := h.literal?_inj
  negate := atom?_negate i
  int few l a known := by rw [h.int?_eq few, known, Option.map_some]
  int_negate few l := by
    rw [h.int?_eq few, h.int?_eq few, atom?_negate, Option.map_map]
    refine congrArg (Option.map · (i.atom? l)) (funext fun a => ?_)
    cases polarity : l.polarity <;> simp [Literal.negate, polarity]
  clause_ok c := by simp only [h.clause_ok_iff, exists_and_left, exists_eq', and_true, h.has_iff]
  clause c lits found := by
    obtain ⟨has, rfl⟩ := h.clause_ok_iff.1 found
    have back : (i.numbering.encode c.toList).map i.numbering.literalOf? = c.toList.map some :=
      Numbering.map_literalOf?_encode has
    rw [← back]
    exact List.map_congr_left fun x _ => (literalOf?_numbering i x).symm

/-- How an index is told from outside, where the numbering of its literals tells the same. -/
structure Tells (i : Index) (n : Numbering) : Prop where
  size : i.size = n.size
  atom : ∀ l, i.atom? l = n.atom? l
  literal : ∀ a, i.literal? a = n.literal? a
  literalOf : ∀ x, i.literalOf? x = n.literalOf? x
  clause : ∀ c, i.clause c = n.clause c

theorem Matched.tells (h : i.Matched) : i.Tells i.numbering where
  size := Array.length_toList.symm
  atom l := (h.atom?_numbering l).symm
  literal a := (literal?_numbering i a).symm
  literalOf x := (literalOf?_numbering i x).symm
  clause := h.clause_eq

/-- Whatever has been registered or has failed to be, an index is one to one and tells what the numbering tells after
the same calls. Later calls change no number, and only a literal that is not ground is refused, which changes
nothing. -/
theorem index_of_calls (calls more : List Call) :
    (run {} calls).OneToOne ∧ (run {} calls).Tells (calls.foldl Call.number {}) ∧
      (∀ a l, (run {} calls).literal? a = some l → ((run {} calls).run more).literal? a = some l) ∧
      (∀ l a, (run {} calls).atom? l = some a → ((run {} calls).run more).atom? l = some a) ∧
      (∀ l, l.isGround = false → (run {} calls).register l = (.error (.nonGroundLiteral l), run {} calls)) ∧
      ∀ l, l.isGround = true → ∃ a, ((run {} calls).register l).1 = .ok a ∧
        ((run {} calls).register l).2.atom? l = some a := by
  obtain ⟨⟨h, -⟩, alike⟩ := matched_empty.run calls
  obtain ⟨⟨h', keeps⟩, -⟩ := h.run more
  have alike : calls.foldl Call.number {} = (run {} calls).numbering := alike
  rw [alike]
  refine ⟨h.oneToOne, h.tells, keeps, fun l a known => ?_, fun l open' => ?_, fun l ground => ?_⟩
  · rw [atom?_eq] at known ⊢
    exact (h'.lookup_iff _ _).2 (keeps _ _ ((h.lookup_iff _ _).1 known))
  · rw [register, open']
    rfl
  · have r := register_spec (run {} calls) l
    generalize (run {} calls).register l = outcome at r
    obtain ⟨result, i'⟩ := outcome
    have r : Registers (run {} calls) l result i' := r
    cases r with
    | failed open' => rw [ground] at open'; cases open'
    | known a ground found => exact ⟨a, rfl, (atom?_eq _ l).trans found⟩
    | new ground missing =>
      refine ⟨_, rfl, (atom?_eq _ l).trans ?_⟩
      rw [lookup_cons_eq, if_pos rfl]

end Index

end Defeasible
