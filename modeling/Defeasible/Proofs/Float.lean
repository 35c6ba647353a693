import Mathlib.Tactic.Common

/-! The order of floats, by the comparison of their parts. It is total but for NaN, which compares with nothing. -/

namespace Defeasible.Float

open Float.Model (UnpackedFloat)

theorem compare_swap (a b : UnpackedFloat) : b.compare a = (a.compare b).map Ordering.swap := by
  have swap (e f : Int) (m n : Nat) :
      (compare f e).then (compare n m) = ((compare e f).then (compare m n)).swap := by
    rw [Ordering.swap_then, ← Std.OrientedCmp.eq_swap, ← Std.OrientedCmp.eq_swap]
  rcases a with (_ | _) | _ | (_ | _) | ⟨_ | _, m, e, -⟩ <;>
    rcases b with (_ | _) | _ | (_ | _) | ⟨_ | _, n, f, -⟩ <;> try rfl
  · exact congrArg some (congrArg Ordering.swap (swap e f m n))
  · exact congrArg some (swap e f m n)

theorem isSome_compare (a b : UnpackedFloat) : (a.compare b).isSome = (!a.isNaN && !b.isNaN) := by
  rcases a with (_ | _) | _ | (_ | _) | ⟨_ | _, m, e, -⟩ <;>
    rcases b with (_ | _) | _ | (_ | _) | ⟨_ | _, n, f, -⟩ <;> rfl

variable {x y : Float}

theorem lt_iff : x < y ↔ x.toModel.unpack.compare y.toModel.unpack = some .lt := by
  change decide (x.toModel.unpack.lt y.toModel.unpack = true) = true ↔ _
  rw [decide_eq_true_iff, UnpackedFloat.lt, beq_iff_eq]

theorem le_iff : x ≤ y ↔ (x.toModel.unpack.compare y.toModel.unpack).any (·.isLE) = true := by
  change decide (x.toModel.unpack.le y.toModel.unpack = true) = true ↔ _
  rw [decide_eq_true_iff, UnpackedFloat.le]

theorem beq_iff : (x == y) = true ↔ x.toModel.unpack.compare y.toModel.unpack = some .eq := by
  change (x.toModel.unpack.compare y.toModel.unpack == some .eq) = true ↔ _
  rw [beq_iff_eq]

theorem le_of_lt (lt : x < y) : x ≤ y := by
  rw [le_iff, lt_iff.1 lt]
  rfl

theorem lt_or_beq_of_le (le : x ≤ y) : x < y ∨ (x == y) = true := by
  rw [le_iff] at le
  rw [lt_iff, beq_iff]
  cases order : x.toModel.unpack.compare y.toModel.unpack with
  | none => rw [order] at le; cases le
  | some o =>
    rw [order] at le
    cases o with
    | lt => exact .inl rfl
    | eq => exact .inr rfl
    | gt => cases le

theorem le_of_not_lt (hx : x.isNaN = false) (hy : y.isNaN = false) (not_lt : ¬ x < y) : y ≤ x := by
  change x.toModel.unpack.isNaN = false at hx
  change y.toModel.unpack.isNaN = false at hy
  have comparable := isSome_compare x.toModel.unpack y.toModel.unpack
  rw [hx, hy] at comparable
  obtain ⟨order, found⟩ := Option.isSome_iff_exists.1 comparable
  rw [lt_iff, found] at not_lt
  rw [le_iff, compare_swap, found]
  cases order with
  | lt => exact absurd rfl not_lt
  | eq => rfl
  | gt => rfl

theorem isNaN_of_le (le : x ≤ y) : x.isNaN = false ∧ y.isNaN = false := by
  have comparable := isSome_compare x.toModel.unpack y.toModel.unpack
  rw [Option.isSome_of_any (le_iff.1 le)] at comparable
  obtain ⟨hx, hy⟩ := Bool.and_eq_true_iff.1 comparable.symm
  exact ⟨(Bool.not_eq_true' _).mp hx, (Bool.not_eq_true' _).mp hy⟩

end Defeasible.Float
