import Defeasible.OrdSet
import Mathlib.Tactic.Common

/-! What holds of all members of finite sets, and sizes of finite sets. -/

universe u

namespace Defeasible.OrdSet

variable {α : Type u} [Ord α] {s t : OrdSet α} {x : α}

theorem isEmpty_iff : s.isEmpty = true ↔ ∀ x, ¬ x ∈ s := by
  rw [isEmpty, List.isEmpty_iff, List.eq_nil_iff_forall_not_mem]
  rfl

theorem size_eq_zero : s.size = 0 ↔ ∀ x, ¬ x ∈ s := by
  rw [← isEmpty_iff, isEmpty, size, List.length_eq_zero_iff, List.isEmpty_iff]

theorem nodup_toList [Std.LawfulEqOrd α] (s : OrdSet α) : s.toList.Nodup := by
  refine s.ascending.imp fun {a b} lt same => ?_
  rw [same, Std.ReflOrd.compare_self] at lt
  cases lt

theorem size_le_of_subset [Std.LawfulEqOrd α] (subset : ∀ y ∈ s, y ∈ t) : s.size ≤ t.size :=
  s.nodup_toList.length_le_of_subset subset

theorem forall_mem_erase [Std.LawfulEqOrd α] {p : α → Prop} (all : ∀ y ∈ s, p y) : ∀ y ∈ s.erase x, p y :=
  fun y hy => all y (mem_erase.1 hy).1

variable [Std.TransOrd α] [Std.LawfulEqOrd α]

theorem forall_mem_union {p : α → Prop} : (∀ y ∈ s ∪ t, p y) ↔ (∀ y ∈ s, p y) ∧ ∀ y ∈ t, p y := by
  simp only [mem_union, or_imp, forall_and]

theorem forall_mem_insert {p : α → Prop} : (∀ y ∈ s.insert x, p y) ↔ p x ∧ ∀ y ∈ s, p y := by
  simp only [mem_insert, forall_eq_or_imp]

theorem size_insert (new : ¬ x ∈ s) : (s.insert x).size = s.size + 1 := by
  have nodup : (x :: s.toList).Nodup := List.nodup_cons.2 ⟨new, s.nodup_toList⟩
  refine ((List.perm_ext_iff_of_nodup (s.insert x).nodup_toList nodup).2 fun y => ?_).length_eq
  rw [mem_toList, mem_insert, List.mem_cons, mem_toList]

theorem size_lt_of_subset (subset : ∀ y ∈ s, y ∈ t) (ht : x ∈ t) (hs : ¬ x ∈ s) : s.size < t.size := by
  have le : (s.insert x).size ≤ t.size := size_le_of_subset fun y hy => by
    rcases mem_insert.1 hy with rfl | hy
    · exact ht
    · exact subset y hy
  rwa [size_insert hs] at le

theorem size_diff_lt (hs : x ∈ s) (ht : x ∈ t) : (s.diff t).size < s.size :=
  size_lt_of_subset (fun _ hy => (mem_diff.1 hy).1) hs fun h => (mem_diff.1 h).2 ht

end Defeasible.OrdSet
