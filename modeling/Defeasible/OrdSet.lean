/-! Finite sets, held as the ascending list of their members. Two sets with the same members are
equal, and sets are themselves ordered, as their lists are. -/

universe u

namespace Defeasible

structure OrdSet (α : Type u) [Ord α] where
  toList : List α
  ascending : toList.Pairwise fun a b => compare a b = .lt

namespace OrdSet

variable {α : Type u} [Ord α]

instance : Membership α (OrdSet α) := ⟨fun s x => x ∈ s.toList⟩

theorem mem_toList {s : OrdSet α} {x : α} : x ∈ s.toList ↔ x ∈ s := Iff.rfl

theorem toList_injective {s t : OrdSet α} (h : s.toList = t.toList) : s = t := by
  cases s; cases t; cases h; rfl

instance [DecidableEq α] : DecidableEq (OrdSet α) := fun s t =>
  if h : s.toList = t.toList then isTrue (toList_injective h)
  else isFalse fun e => h (e ▸ rfl)

def empty : OrdSet α := ⟨[], .nil⟩

instance : EmptyCollection (OrdSet α) := ⟨empty⟩

instance : Inhabited (OrdSet α) := ⟨empty⟩

theorem not_mem_empty (x : α) : ¬ x ∈ (∅ : OrdSet α) := List.not_mem_nil

def size (s : OrdSet α) : Nat := s.toList.length

def isEmpty (s : OrdSet α) : Bool := s.toList.isEmpty

def singleton (x : α) : OrdSet α := ⟨[x], List.pairwise_singleton _ x⟩

theorem mem_singleton {x y : α} : x ∈ singleton y ↔ x = y := List.mem_singleton

def filter (p : α → Bool) (s : OrdSet α) : OrdSet α := ⟨s.toList.filter p, s.ascending.filter p⟩

theorem mem_filter {p : α → Bool} {s : OrdSet α} {x : α} : x ∈ s.filter p ↔ x ∈ s ∧ p x :=
  List.mem_filter

def hasIn (x : α) : List α → Bool
  | [] => false
  | y :: ys => match compare x y with
    | .lt => false
    | .eq => true
    | .gt => hasIn x ys

def has (s : OrdSet α) (x : α) : Bool := hasIn x s.toList

def isSubset (s t : OrdSet α) : Bool := s.toList.all t.has

def diff (s t : OrdSet α) : OrdSet α := s.filter fun x => !t.has x

def erase (s : OrdSet α) (x : α) : OrdSet α := s.filter fun y => compare x y != .eq

def insertIn (x : α) : List α → List α
  | [] => [x]
  | y :: ys => match compare x y with
    | .lt => x :: y :: ys
    | .eq => y :: ys
    | .gt => y :: insertIn x ys

def mergeWith (x : α) (rest : List α → List α) : List α → List α
  | [] => x :: rest []
  | y :: ys => match compare x y with
    | .lt => x :: rest (y :: ys)
    | .eq => x :: rest ys
    | .gt => y :: mergeWith x rest ys

def merge : List α → List α → List α
  | [], ys => ys
  | x :: xs, ys => mergeWith x (merge xs) ys

theorem mem_insertIn [Std.LawfulEqOrd α] {x y : α} {ys : List α} :
    y ∈ insertIn x ys ↔ y = x ∨ y ∈ ys := by
  induction ys with
  | nil => simp [insertIn]
  | cons z zs ih =>
    simp only [insertIn]
    split
    next => simp
    next h =>
      have := Std.LawfulEqOrd.eq_of_compare h
      subst this
      simp
    next =>
      simp only [List.mem_cons, ih]
      constructor
      · rintro (h | h | h) <;> simp [h]
      · rintro (h | h | h) <;> simp [h]

theorem mem_mergeWith [Std.LawfulEqOrd α] {x : α} {xs : List α}
    (ih : ∀ {ys : List α} {y : α}, y ∈ merge xs ys ↔ y ∈ xs ∨ y ∈ ys) {ys : List α} {y : α} :
    y ∈ mergeWith x (merge xs) ys ↔ y ∈ x :: xs ∨ y ∈ ys := by
  induction ys with
  | nil => simp [mergeWith, ih]
  | cons z zs ihz =>
    simp only [mergeWith]
    split
    next => simp [ih, or_assoc]
    next h =>
      have := Std.LawfulEqOrd.eq_of_compare h
      subst this
      simp only [List.mem_cons, ih]
      constructor
      · rintro (h | h | h) <;> simp [h]
      · rintro ((h | h) | h | h) <;> simp [h]
    next =>
      rw [List.mem_cons, ihz]
      simp only [List.mem_cons]
      constructor
      · rintro (h | (h | h) | h) <;> simp [h]
      · rintro ((h | h) | h | h) <;> simp [h]

theorem mem_merge [Std.LawfulEqOrd α] {xs ys : List α} {y : α} :
    y ∈ merge xs ys ↔ y ∈ xs ∨ y ∈ ys := by
  induction xs generalizing ys y with
  | nil => simp [merge]
  | cons x xs ih => exact mem_mergeWith ih

theorem mem_erase [Std.LawfulEqOrd α] {s : OrdSet α} {x y : α} : y ∈ s.erase x ↔ y ∈ s ∧ y ≠ x := by
  rw [erase, mem_filter, bne_iff_ne]
  refine and_congr_right fun _ => not_congr ⟨fun h => (Std.LawfulEqOrd.eq_of_compare h).symm, ?_⟩
  rintro rfl
  exact Std.ReflOrd.compare_self

section Lawful

variable [Std.TransOrd α] [Std.LawfulEqOrd α]

theorem hasIn_eq_true {x : α} {ys : List α} (h : ys.Pairwise fun a b => compare a b = .lt) :
    hasIn x ys = true ↔ x ∈ ys := by
  induction ys with
  | nil => simp [hasIn]
  | cons y ys ih =>
    obtain ⟨hy, hys⟩ := List.pairwise_cons.1 h
    simp only [hasIn, List.mem_cons]
    split
    next hxy =>
      constructor
      · intro h; cases h
      · rintro (rfl | hx)
        · rw [Std.ReflOrd.compare_self] at hxy; cases hxy
        · have := Std.TransCmp.lt_trans hxy (hy x hx)
          rw [Std.ReflOrd.compare_self] at this; cases this
    next hxy => simp [Std.LawfulEqOrd.eq_of_compare hxy]
    next hxy =>
      rw [ih hys]
      constructor
      · exact .inr
      · rintro (rfl | hx)
        · rw [Std.ReflOrd.compare_self] at hxy; cases hxy
        · exact hx

@[simp] theorem has_eq_true {s : OrdSet α} {x : α} : s.has x = true ↔ x ∈ s :=
  hasIn_eq_true s.ascending

instance (x : α) (s : OrdSet α) : Decidable (x ∈ s) :=
  decidable_of_iff (s.has x = true) has_eq_true

theorem mem_diff {s t : OrdSet α} {x : α} : x ∈ s.diff t ↔ x ∈ s ∧ ¬ x ∈ t := by
  rw [diff, mem_filter, Bool.not_eq_true', ← Bool.not_eq_true, has_eq_true]

theorem isSubset_eq_true {s t : OrdSet α} : s.isSubset t = true ↔ ∀ x ∈ s, x ∈ t := by
  simp only [isSubset, List.all_eq_true, has_eq_true]
  rfl

theorem ascending_insertIn {x : α} {ys : List α} (h : ys.Pairwise fun a b => compare a b = .lt) :
    (insertIn x ys).Pairwise fun a b => compare a b = .lt := by
  induction ys with
  | nil => exact List.pairwise_singleton _ x
  | cons y ys ih =>
    obtain ⟨hy, hys⟩ := List.pairwise_cons.1 h
    simp only [insertIn]
    split
    next hxy =>
      refine List.pairwise_cons.2 ⟨fun z hz => ?_, h⟩
      rcases List.mem_cons.1 hz with rfl | hz
      · exact hxy
      · exact Std.TransCmp.lt_trans hxy (hy z hz)
    next => exact h
    next hxy =>
      refine List.pairwise_cons.2 ⟨fun z hz => ?_, ih hys⟩
      rcases mem_insertIn.1 hz with rfl | hz
      · exact Std.OrientedCmp.lt_of_gt hxy
      · exact hy z hz

def insert (s : OrdSet α) (x : α) : OrdSet α := ⟨insertIn x s.toList, ascending_insertIn s.ascending⟩

@[simp] theorem mem_insert {s : OrdSet α} {x y : α} : y ∈ s.insert x ↔ y = x ∨ y ∈ s :=
  mem_insertIn

theorem ascending_mergeWith {x : α} {xs : List α}
    (hx : ∀ z ∈ xs, compare x z = .lt)
    (ih : ∀ {ys : List α}, ys.Pairwise (fun a b => compare a b = .lt) →
      (merge xs ys).Pairwise fun a b => compare a b = .lt)
    {ys : List α} (h : ys.Pairwise fun a b => compare a b = .lt) :
    (mergeWith x (merge xs) ys).Pairwise fun a b => compare a b = .lt := by
  induction ys with
  | nil =>
    refine List.pairwise_cons.2 ⟨fun z hz => ?_, ih .nil⟩
    rcases mem_merge.1 hz with hz | hz
    · exact hx z hz
    · cases hz
  | cons y ys ihy =>
    obtain ⟨hy, hys⟩ := List.pairwise_cons.1 h
    simp only [mergeWith]
    split
    next hxy =>
      refine List.pairwise_cons.2 ⟨fun z hz => ?_, ih h⟩
      rcases mem_merge.1 hz with hz | hz
      · exact hx z hz
      · rcases List.mem_cons.1 hz with rfl | hz
        · exact hxy
        · exact Std.TransCmp.lt_trans hxy (hy z hz)
    next hxy =>
      have := Std.LawfulEqOrd.eq_of_compare hxy
      subst this
      refine List.pairwise_cons.2 ⟨fun z hz => ?_, ih hys⟩
      rcases mem_merge.1 hz with hz | hz
      · exact hx z hz
      · exact hy z hz
    next hxy =>
      have hyx := Std.OrientedCmp.lt_of_gt hxy
      refine List.pairwise_cons.2 ⟨fun z hz => ?_, ihy hys⟩
      rcases (mem_mergeWith mem_merge).1 hz with hz | hz
      · rcases List.mem_cons.1 hz with rfl | hz
        · exact hyx
        · exact Std.TransCmp.lt_trans hyx (hx z hz)
      · exact hy z hz

theorem ascending_merge {xs ys : List α} (hx : xs.Pairwise fun a b => compare a b = .lt)
    (hy : ys.Pairwise fun a b => compare a b = .lt) :
    (merge xs ys).Pairwise fun a b => compare a b = .lt := by
  induction xs generalizing ys with
  | nil => exact hy
  | cons x xs ih =>
    obtain ⟨h, hxs⟩ := List.pairwise_cons.1 hx
    exact ascending_mergeWith h (fun hy => ih hxs hy) hy

def union (s t : OrdSet α) : OrdSet α := ⟨merge s.toList t.toList, ascending_merge s.ascending t.ascending⟩

instance : Union (OrdSet α) := ⟨union⟩

@[simp] theorem mem_union {s t : OrdSet α} {x : α} : x ∈ s ∪ t ↔ x ∈ s ∨ x ∈ t := mem_merge

def ofList (xs : List α) : OrdSet α := xs.foldr (fun x s => s.insert x) ∅

@[simp] theorem mem_ofList {xs : List α} {x : α} : x ∈ ofList xs ↔ x ∈ xs := by
  induction xs with
  | nil => exact ⟨fun h => (not_mem_empty x h).elim, fun h => by cases h⟩
  | cons y ys ih => exact mem_insert.trans ((or_congr_right ih).trans List.mem_cons.symm)

theorem ext {s t : OrdSet α} (h : ∀ x, x ∈ s ↔ x ∈ t) : s = t := by
  apply toList_injective
  have asymm : ∀ {a b : α}, compare a b = .lt → compare b a = .lt → False := fun hab hba => by
    have := Std.TransCmp.lt_trans hab hba
    rw [Std.ReflOrd.compare_self] at this
    cases this
  suffices ∀ (xs ys : List α), xs.Pairwise (fun a b => compare a b = .lt) →
      ys.Pairwise (fun a b => compare a b = .lt) → (∀ x, x ∈ xs ↔ x ∈ ys) → xs = ys from
    this _ _ s.ascending t.ascending h
  intro xs
  induction xs with
  | nil =>
    intro ys _ _ h
    cases ys with
    | nil => rfl
    | cons y ys => exact absurd ((h y).2 List.mem_cons_self) List.not_mem_nil
  | cons x xs ih =>
    intro ys hx hy h
    cases ys with
    | nil => exact absurd ((h x).1 List.mem_cons_self) List.not_mem_nil
    | cons y ys =>
      obtain ⟨hx, hxs⟩ := List.pairwise_cons.1 hx
      obtain ⟨hy, hys⟩ := List.pairwise_cons.1 hy
      have head : x = y := by
        rcases List.mem_cons.1 ((h x).1 List.mem_cons_self) with e | hxy
        · exact e
        rcases List.mem_cons.1 ((h y).2 List.mem_cons_self) with e | hyx
        · exact e.symm
        exact (asymm (hx y hyx) (hy x hxy)).elim
      subst head
      congr 1
      refine ih ys hxs hys fun z => ⟨fun hz => ?_, fun hz => ?_⟩
      · rcases List.mem_cons.1 ((h z).1 (List.mem_cons_of_mem _ hz)) with rfl | hz'
        · exact (asymm (hx z hz) (hx z hz)).elim
        · exact hz'
      · rcases List.mem_cons.1 ((h z).2 (List.mem_cons_of_mem _ hz)) with rfl | hz'
        · exact (asymm (hy z hz) (hy z hz)).elim
        · exact hz'

end Lawful

instance : Ord (OrdSet α) := ⟨fun s t => compare s.toList t.toList⟩

instance [Std.TransOrd α] : Std.TransOrd (OrdSet α) where
  eq_swap {s t} := Std.OrientedOrd.eq_swap (a := s.toList) (b := t.toList)
  isLE_trans {s t r} := Std.TransOrd.isLE_trans (a := s.toList) (b := t.toList) (c := r.toList)

instance [Std.TransOrd α] [Std.LawfulEqOrd α] : Std.LawfulEqOrd (OrdSet α) where
  compare_self {s} := Std.ReflOrd.compare_self (a := s.toList)
  eq_of_compare {_ _} h := toList_injective (Std.LawfulEqOrd.eq_of_compare h)

end OrdSet

end Defeasible
