import Defeasible.Counting.Dimacs
import Defeasible.Proofs.Ground.Numbering
import Defeasible.Proofs.OrdSet
import Defeasible.Proofs.StableSort
import Defeasible.Proofs.Text.Cutting
import Mathlib

/-! Clauses as numbers, read again. The numbers of a line end with tabs and so are cut apart again, none of them is
zero, and the sign and the size of each tell the literal, whichever place sorting has given it. -/

namespace Defeasible

namespace Search.Lit

variable {x : Lit}

theorem natAbs_toInt (x : Lit) : x.toInt.natAbs = x.atom := by
  rw [toInt]
  split
  · exact Int.natAbs_natCast x.atom
  · rw [Int.natAbs_neg, Int.natAbs_natCast]

theorem ofInt_toInt (positive : 0 < x.atom) : ofInt x.toInt = x := by
  have sign : decide (0 < x.toInt) = x.polarity := by
    rw [toInt]
    cases x.polarity with
    | true => exact decide_eq_true (Int.natCast_pos.2 positive)
    | false => exact decide_eq_false (by simp)
  rw [ofInt, natAbs_toInt, sign]

end Search.Lit

namespace Dimacs

open Search (Lit)
open Text (splitOn_flatMap)

variable {n : Numbering} {c : Clause} {clauses : List Clause} {lits : List Lit} {ints : List Int} {sep : Char}

/-! ### Reading -/

def numbers? (line : List Char) : Option (List Int) :=
  let fields := line.splitOn '\t'
  if fields.getLast? = some ['0'] then fields.dropLast.mapM fun field => (String.ofList field).toInt? else none

/-- Whether numbers say what a clause says, for a reader with the numbering. -/
structure Spells (n : Numbering) (ints : List Int) (c : Clause) : Prop where
  range : ∀ i ∈ ints, i ≠ 0 ∧ i.natAbs ≤ n.size
  ascending : ints.Pairwise fun i j => i.natAbs ≤ j.natAbs
  literals : (ints.map fun i => n.literalOf? (.ofInt i)).Perm (c.toList.map some)
  fits : n.size < 2 ^ 31 → ∀ i ∈ ints, (Lit.ofInt i).toInt? = some i

/-! ### Numerals -/

theorem not_mem_natRepr (sep_digit : sep.isDigit = false) (k : Nat) : sep ∉ (toString k).toList := by
  have same : toString k = String.ofList (Nat.toDigits 10 k) := Nat.repr_eq_ofList_toDigits
  rw [same, String.toList_ofList]
  intro mem
  rw [Nat.isDigit_of_mem_toDigits (by decide) (by decide) mem] at sep_digit
  cases sep_digit

theorem not_mem_intRepr (sep_digit : sep.isDigit = false) (sep_sign : sep ≠ '-') (i : Int) :
    sep ∉ (toString i).toList := by
  have same : toString i = if 0 ≤ i then toString i.toNat else "-" ++ toString (-i).toNat := Int.repr_eq_if
  rw [same]
  split
  · exact not_mem_natRepr sep_digit _
  · rw [String.toList_append, List.mem_append, not_or]
    exact ⟨fun sign => sep_sign (List.mem_singleton.1 sign), not_mem_natRepr sep_digit _⟩

/-! ### Lines -/

def numbers (lits : List Lit) : List Int :=
  stableSort (fun i j => i.natAbs ≤ j.natAbs) (lits.map Lit.toInt)

def written (ints : List Int) : List Char :=
  (ints.map fun i => (toString i).toList).flatMap (· ++ ['\t']) ++ ['0']

theorem toList_line (lits : List Lit) : (line lits).toList = written (numbers lits) ++ ['\n'] := by
  have joined : line lits = String.join ((numbers lits).map fun i => toString i ++ "\t") ++ "0\n" := rfl
  rw [joined, String.toList_append, String.toList_join, List.flatMap_map, written, List.flatMap_map,
    List.append_assoc]
  congr 1
  exact List.flatMap_congr fun i _ => String.toList_append

theorem not_mem_written (ints : List Int) : '\n' ∉ written ints := by
  rw [written, List.mem_append, List.flatMap_map, List.mem_flatMap, not_or]
  refine ⟨fun ⟨i, _, mem⟩ => ?_, by decide⟩
  rcases List.mem_append.1 mem with mem | tab
  · exact not_mem_intRepr (by decide) (by decide) i mem
  · exact absurd tab (by decide)

theorem numbers?_written (ints : List Int) : numbers? (written ints) = some ints := by
  have plain : ∀ field ∈ ints.map fun i => (toString i).toList, '\t' ∉ field :=
    List.forall_mem_map.2 fun i _ => not_mem_intRepr (by decide) (by decide) i
  have fields : (written ints).splitOn '\t' = (ints.map fun i => (toString i).toList) ++ [['0']] :=
    splitOn_flatMap plain ['0']
  have read (i : Int) : (String.ofList (toString i).toList).toInt? = some i := by
    rw [String.ofList_toList]
    exact Int.toInt?_repr i
  rw [numbers?, fields, List.getLast?_concat, if_pos rfl, List.dropLast_concat, List.mapM_map]
  have each : ((fun field => (String.ofList field).toInt?) ∘ fun i : Int => (toString i).toList) = pure :=
    funext read
  rw [each]
  exact (List.mapM_pure (f := id)).trans (congrArg some (List.map_id ints))

theorem spells_encode (has : ∀ l ∈ c, n.Has l) : Spells n (numbers (n.encode c.toList)) c := by
  have within : Search.Over n.size (n.encode c.toList) := n.over_encode c.toList
  have perm : (numbers (n.encode c.toList)).Perm ((n.encode c.toList).map Lit.toInt) := stableSort_perm _ _
  have from_lit {i : Int} (hi : i ∈ numbers (n.encode c.toList)) : ∃ x ∈ n.encode c.toList, x.toInt = i :=
    List.mem_map.1 (perm.mem_iff.1 hi)
  constructor
  case range =>
    intro i hi
    obtain ⟨x, hx, rfl⟩ := from_lit hi
    obtain ⟨positive, le⟩ := within x hx
    rw [← Int.natAbs_ne_zero, Lit.natAbs_toInt]
    exact ⟨positive.ne', le⟩
  case ascending =>
    refine (pairwise_stableSort (fun i j => ?_) (fun i j k => ?_) _).imp of_decide_eq_true
    · rw [decide_eq_true_eq, decide_eq_true_eq]
      exact Nat.le_total _ _
    · rw [decide_eq_true_eq, decide_eq_true_eq, decide_eq_true_eq]
      exact Nat.le_trans
  case literals =>
    have back : (n.encode c.toList).map n.literalOf? = c.toList.map some := Numbering.map_literalOf?_encode has
    refine (perm.map _).trans (List.Perm.of_eq ?_)
    rw [List.map_map, ← back]
    exact List.map_congr_left fun x hx => congrArg n.literalOf? (Lit.ofInt_toInt (within x hx).1)
  case fits =>
    intro few i hi
    obtain ⟨x, hx, rfl⟩ := from_lit hi
    obtain ⟨positive, le⟩ := within x hx
    have small : 2 * x.atom < 2 * 2 ^ 31 := Nat.mul_lt_mul_of_pos_left (Nat.lt_of_le_of_lt le few) Nat.two_pos
    rw [Lit.ofInt_toInt positive]
    exact if_pos small

/-! ### Texts -/

theorem mapM_lines (has : ∀ c ∈ clauses, ∀ l ∈ c, n.Has l) :
    (clauses.mapM fun c => do return line (← n.clause c)) =
      Except.ok (clauses.map fun c => line (n.encode c.toList)) := by
  induction clauses with
  | nil => rfl
  | cons c clauses ih =>
    obtain ⟨first, rest⟩ := List.forall_mem_cons.1 has
    have clause : n.clause c = .ok (n.encode c.toList) := Numbering.lits_of_has first
    rw [List.mapM_cons, clause, ih rest]
    rfl

theorem exists_write (ground : ∀ c ∈ clauses, c.isGround = true) :
    ∃ n, write clauses = .ok (header n.size clauses.length ++
        String.join (clauses.map fun c => line (n.encode c.toList)) ++ "\n", n) ∧
      Numbering.Registers {} (clauses.flatMap Clause.toList) n := by
  obtain ⟨n, registered, registers⟩ := Numbering.registerClauses_spec (n := {}) ground
  have has : ∀ c ∈ clauses, ∀ l ∈ c, n.Has l := fun c hc l hl =>
    (registers.mem_iff _).2 (.inr ⟨l, List.mem_flatMap.2 ⟨c, hc, hl⟩, rfl⟩)
  refine ⟨n, ?_, registers⟩
  have lines : (clauses.mapM fun c => do return line (← n.clause c)) = Except.ok _ := mapM_lines has
  calc write clauses
      = (do
          let lines ← clauses.mapM fun c => do return line (← n.clause c)
          return (header n.size clauses.length ++ String.join lines ++ "\n", n)) := by
        rw [write, registered]
        rfl
    _ = .ok (header n.size clauses.length ++
          String.join (clauses.map fun c => line (n.encode c.toList)) ++ "\n", n) := by
        rw [lines]
        rfl

def title (atoms count : Nat) : List Char := ("p cnf " ++ toString atoms ++ " " ++ toString count).toList

theorem toList_header (atoms count : Nat) : (header atoms count).toList = title atoms count ++ ['\n'] :=
  String.toList_append

theorem not_mem_title (atoms count : Nat) : '\n' ∉ title atoms count := by
  simp only [title, String.toList_append, List.mem_append, not_or]
  exact ⟨⟨⟨by decide, not_mem_natRepr (by decide) atoms⟩, by decide⟩, not_mem_natRepr (by decide) count⟩

theorem splitOn_text (n : Numbering) (clauses : List Clause) :
    (header n.size clauses.length ++ String.join (clauses.map fun c => line (n.encode c.toList)) ++
        "\n").toList.splitOn '\n' =
      title n.size clauses.length :: (clauses.map fun c => written (numbers (n.encode c.toList))) ++ [[], []] := by
  have rows : (String.join (clauses.map fun c => line (n.encode c.toList))).toList =
      (clauses.map fun c => written (numbers (n.encode c.toList))).flatMap (· ++ ['\n']) := by
    rw [String.toList_join, List.flatMap_map, List.flatMap_map]
    exact List.flatMap_congr fun c _ => toList_line _
  have plain : ∀ row ∈ title n.size clauses.length ::
      clauses.map fun c => written (numbers (n.encode c.toList)), '\n' ∉ row :=
    List.forall_mem_cons.2 ⟨not_mem_title _ _, List.forall_mem_map.2 fun c _ => not_mem_written _⟩
  rw [String.toList_append, String.toList_append, toList_header, rows]
  exact splitOn_flatMap plain ['\n']

/-- Ground clauses are written with a numbering of their propositions, and a reader who has it finds the literals of
each clause in its line. Where some literal is not ground, nothing is written. -/
theorem write_decodes (clauses : List Clause) :
    ((∀ c ∈ clauses, c.isGround = true) → ∃ text n rows,
      write clauses = .ok (text, n) ∧
      n.literals.Nodup ∧ (∀ p, p ∈ n.literals ↔ ∃ c ∈ clauses, ∃ l ∈ c, l.positive = p) ∧
      text.toList.splitOn '\n' =
        ("p cnf " ++ toString n.size ++ " " ++ toString clauses.length).toList :: rows ++ [[], []] ∧
      List.Forall₂ (fun c row => ∃ ints, numbers? row = some ints ∧ Spells n ints c) clauses rows) ∧
    ((∃ c ∈ clauses, c.isGround = false) → ∃ c ∈ clauses, ∃ l ∈ c, l.isGround = false ∧
      write clauses = .error (.nonGroundLiteral l)) := by
  constructor
  · intro ground
    obtain ⟨n, run, registers⟩ := exists_write ground
    have known (p : Literal) : p ∈ n.literals ↔ ∃ c ∈ clauses, ∃ l ∈ c, l.positive = p := by
      rw [registers.mem_iff, or_iff_right List.not_mem_nil]
      constructor
      · rintro ⟨l, hl, same⟩
        obtain ⟨c, hc, hl⟩ := List.mem_flatMap.1 hl
        exact ⟨c, hc, l, hl, same⟩
      · rintro ⟨c, hc, l, hl, same⟩
        exact ⟨l, List.mem_flatMap.2 ⟨c, hc, hl⟩, same⟩
    refine ⟨_, n, _, run, registers.nodup List.nodup_nil, known, splitOn_text n clauses, ?_⟩
    rw [List.forall₂_map_right_iff, List.forall₂_same]
    intro c hc
    exact ⟨_, numbers?_written _, spells_encode fun l hl => (known _).2 ⟨c, hc, l, hl, rfl⟩⟩
  · rintro ⟨c, hc, not_ground⟩
    cases registered : Numbering.registerClauses {} clauses with
    | ok n =>
      rw [Numbering.registerClauses_ok registered c hc] at not_ground
      cases not_ground
    | error e =>
      obtain ⟨d, hd, l, hl, not_ground, rfl⟩ := Numbering.registerClauses_error registered
      refine ⟨d, hd, l, hl, not_ground, ?_⟩
      rw [write, registered]
      rfl

def repetitive : List Clause :=
  [.ofList [⟨"a", [], true⟩, ⟨"b", [], false⟩], .empty, .ofList [⟨"a", [], true⟩, ⟨"a", [], false⟩],
    .ofList [⟨"a", [], true⟩, ⟨"b", [], false⟩]]

theorem write_decodes_repetitive :
    (∃ text n rows, write repetitive = .ok (text, n) ∧
      text.toList.splitOn '\n' =
        ("p cnf " ++ toString n.size ++ " " ++ toString 4).toList :: rows ++ [[], []] ∧
      List.Forall₂ (fun c row => ∃ ints, numbers? row = some ints ∧ Spells n ints c) repetitive rows) ∧
    ∃ l, write (repetitive ++ [.unit ⟨"p", [.var "x"], true⟩]) = .error (.nonGroundLiteral l) := by
  obtain ⟨text, n, rows, run, -, -, cut, read⟩ := (write_decodes repetitive).1 (by decide +kernel)
  obtain ⟨-, -, l, -, -, failed⟩ :=
    (write_decodes (repetitive ++ [.unit ⟨"p", [.var "x"], true⟩])).2 (by decide +kernel)
  exact ⟨⟨text, n, rows, run, cut, read⟩, l, failed⟩

example : (write repetitive).toOption.map Prod.fst = some "p cnf 2 4\n1\t-2\t0\n0\n-1\t1\t0\n1\t-2\t0\n\n" := by
  decide +kernel

end Dimacs

end Defeasible
