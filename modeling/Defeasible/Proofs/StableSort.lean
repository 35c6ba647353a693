import Defeasible.StableSort

/-! What sorting does: the elements stay the same, and those in front come first. -/

namespace Defeasible

variable {α : Type} {le : α → α → Bool}

theorem insertBefore_perm (le : α → α → Bool) (x : α) (xs : List α) :
    (insertBefore le x xs).Perm (x :: xs) := by
  induction xs with
  | nil => exact .rfl
  | cons y ys ih =>
    rw [insertBefore]
    split
    · exact .rfl
    · exact (ih.cons y).trans (.swap x y ys)

theorem stableSort_perm (le : α → α → Bool) (xs : List α) : (stableSort le xs).Perm xs := by
  induction xs with
  | nil => exact .rfl
  | cons x xs ih => exact (insertBefore_perm le x _).trans (ih.cons x)

theorem pairwise_insertBefore (total : ∀ a b, le a b = true ∨ le b a = true)
    (trans : ∀ a b c, le a b = true → le b c = true → le a c = true) (x : α) {xs : List α}
    (sorted : xs.Pairwise fun a b => le a b = true) : (insertBefore le x xs).Pairwise fun a b => le a b = true := by
  induction xs with
  | nil => exact List.pairwise_singleton _ x
  | cons y ys ih =>
    obtain ⟨first, sorted'⟩ := List.pairwise_cons.1 sorted
    rw [insertBefore]
    split
    · next before =>
      refine List.pairwise_cons.2 ⟨fun z hz => ?_, sorted⟩
      rcases List.mem_cons.1 hz with rfl | hz
      · exact before
      · exact trans x y z before (first z hz)
    · next after =>
      refine List.pairwise_cons.2 ⟨fun z hz => ?_, ih sorted'⟩
      rcases List.mem_cons.1 ((insertBefore_perm le x ys).mem_iff.1 hz) with rfl | hz
      · exact (total z y).resolve_left after
      · exact first z hz

theorem pairwise_stableSort (total : ∀ a b, le a b = true ∨ le b a = true)
    (trans : ∀ a b c, le a b = true → le b c = true → le a c = true) (xs : List α) :
    (stableSort le xs).Pairwise fun a b => le a b = true := by
  induction xs with
  | nil => exact .nil
  | cons x xs ih => exact pairwise_insertBefore total trans x ih

end Defeasible
