import Defeasible.Extraction.Bound
import Defeasible.Proofs.OrdSet
import Mathlib.Data.List.Basic

/-! The table of bounds finds what a look at all bounds would: its lists of places hold the places of the
bounds with so many literals, or with a literal, in their lower sets. -/

namespace Defeasible

theorem Bound.contains_iff {b : Bound} {set : LiteralSet} :
    b.contains set = true ↔ (∀ l ∈ b.lower, l ∈ set) ∧ ∀ l ∈ set, l ∈ b.upper := by
  rw [contains, Bool.and_eq_true, OrdSet.isSubset_eq_true, OrdSet.isSubset_eq_true]

theorem Bound.mem_implied {b : Bound} {l : Literal} : l ∈ b.implied ↔ l ∈ b.upper ∧ ¬ l ∈ b.lower :=
  OrdSet.mem_diff

section Places

variable {κ : Type} [DecidableEq κ] {key k : κ} {place i : Nat}

theorem placesOf_cons (first : κ) (ps : List Nat) (places : Places κ) (k : κ) :
    placesOf k ((first, ps) :: places) = if k = first then ps else placesOf k places := by
  rw [placesOf, List.lookup_cons]
  by_cases same : k = first
  · rw [beq_iff_eq.2 same, if_pos same]
    rfl
  · rw [beq_false_of_ne same, if_neg same]
    rfl

theorem placesOf_addPlace (key : κ) (place : Nat) (places : Places κ) (k : κ) :
    placesOf k (addPlace key place places) =
      if k = key then placesOf k places ++ [place] else placesOf k places := by
  induction places with
  | nil => exact placesOf_cons key [place] [] k
  | cons entry places ih =>
    obtain ⟨first, ps⟩ := entry
    rw [addPlace]
    split
    · next same =>
      subst same
      rw [placesOf_cons, placesOf_cons]
      split <;> rfl
    · next differs =>
      rw [placesOf_cons, placesOf_cons, ih]
      by_cases found : k = first
      · have other : ¬ k = key := fun same => differs (found.symm.trans same)
        rw [if_pos found, if_neg other, if_pos found]
      · rw [if_neg found, if_neg found]

theorem mem_placesOf_addPlace {places : Places κ} :
    i ∈ placesOf k (addPlace key place places) ↔ i ∈ placesOf k places ∨ k = key ∧ i = place := by
  rw [placesOf_addPlace]
  split
  · next same => rw [List.mem_append, List.mem_singleton, and_iff_right same]
  · next differs => rw [or_iff_left fun h => differs h.1]

theorem mem_placesOf_foldl {keys : List κ} {places : Places κ} :
    i ∈ placesOf k (keys.foldl (fun places key => addPlace key place places) places) ↔
      i ∈ placesOf k places ∨ k ∈ keys ∧ i = place := by
  induction keys generalizing places with
  | nil => simp
  | cons key keys ih =>
    rw [List.foldl_cons, ih, mem_placesOf_addPlace, List.mem_cons, or_and_right, or_assoc]

end Places

namespace BoundTable

variable {s : BoundTable} {set lower upper : LiteralSet} {b : Bound} {n : Nat}

structure Indexed (s : BoundTable) : Prop where
  byLength : ∀ n i, i ∈ placesOf n s.byLength ↔ ∃ b, s.bounds[i]? = some b ∧ b.lower.size = n
  byLiteral : ∀ l i, i ∈ placesOf l s.byLiteral ↔ ∃ b, s.bounds[i]? = some b ∧ l ∈ b.lower

theorem indexed_default : ({} : BoundTable).Indexed :=
  ⟨fun n i => by simp [placesOf], fun l i => by simp [placesOf]⟩

theorem toList_store (s : BoundTable) (lower upper : LiteralSet) :
    (s.store lower upper).toList = s.toList ++ [⟨lower, upper⟩] := Array.toList_push

theorem exists_push {p : Bound → Prop} {i : Nat} :
    (∃ b, (s.bounds.push ⟨lower, upper⟩)[i]? = some b ∧ p b) ↔
      (∃ b, s.bounds[i]? = some b ∧ p b) ∨ p ⟨lower, upper⟩ ∧ i = s.bounds.size := by
  rw [Array.getElem?_push]
  split
  · next same => simp [same]
  · next differs => simp [differs]

theorem Indexed.store (indexed : s.Indexed) (lower upper : LiteralSet) : (s.store lower upper).Indexed := by
  constructor
  · intro n i
    refine mem_placesOf_addPlace.trans ((or_congr (indexed.byLength n i) ?_).trans exists_push.symm)
    exact and_congr_left fun _ => eq_comm
  · intro l i
    exact mem_placesOf_foldl.trans ((or_congr_left (indexed.byLiteral l i)).trans exists_push.symm)

theorem mem_ofLength (indexed : s.Indexed) : b ∈ s.ofLength n ↔ b ∈ s.toList ∧ b.lower.size = n := by
  simp only [ofLength, List.mem_filterMap, indexed.byLength]
  constructor
  · rintro ⟨i, ⟨c, found, size⟩, same⟩
    obtain rfl := Option.some.inj (found.symm.trans same)
    exact ⟨Array.mem_toList_iff.2 (Array.mem_of_getElem? same), size⟩
  · rintro ⟨mem, size⟩
    obtain ⟨i, found⟩ := Array.mem_iff_getElem?.1 (Array.mem_toList_iff.1 mem)
    exact ⟨i, ⟨b, found, size⟩, found⟩

def Covers (s : BoundTable) (set : LiteralSet) : Prop :=
  ∃ b ∈ s.toList, (∃ l, l ∈ b.lower) ∧ b.contains set = true

theorem Covers.mono {bounds : BoundTable} (covers : s.Covers set)
    (kept : ∀ b ∈ s.toList, b ∈ bounds.toList) : bounds.Covers set :=
  covers.imp fun b h => ⟨kept b h.1, h.2⟩

theorem inside_iff (indexed : s.Indexed) : s.inside set = true ↔ s.Covers set := by
  simp only [inside, List.any_eq_true, Option.any_eq_true, indexed.byLiteral]
  constructor
  · rintro ⟨l, -, i, ⟨b, found, mem⟩, c, same, contains⟩
    obtain rfl := Option.some.inj (found.symm.trans same)
    exact ⟨b, Array.mem_toList_iff.2 (Array.mem_of_getElem? found), ⟨l, mem⟩, contains⟩
  · rintro ⟨b, hb, ⟨l, mem⟩, contains⟩
    obtain ⟨i, found⟩ := Array.mem_iff_getElem?.1 (Array.mem_toList_iff.1 hb)
    exact ⟨l, (Bound.contains_iff.1 contains).1 l mem, i, ⟨b, found, mem⟩, b, found, contains⟩

theorem Indexed.lt_of_byLength (indexed : s.Indexed) {i : Nat} (h : i ∈ placesOf n s.byLength) : i < s.size := by
  obtain ⟨b, found, -⟩ := (indexed.byLength n i).1 h
  exact (Array.getElem?_eq_some_iff.1 found).1

theorem Indexed.lt_of_byLiteral (indexed : s.Indexed) {l : Literal} {i : Nat}
    (h : i ∈ placesOf l s.byLiteral) : i < s.size := by
  obtain ⟨b, found, -⟩ := (indexed.byLiteral l i).1 h
  exact (Array.getElem?_eq_some_iff.1 found).1

theorem ofLength_store (indexed : s.Indexed) (b : Bound) (n : Nat) :
    (s.store b.lower b.upper).ofLength n = s.ofLength n ++ [b].filter fun b => b.lower.size = n := by
  have kept : (placesOf n s.byLength).filterMap (fun place => (s.bounds.push b)[place]?) =
      (placesOf n s.byLength).filterMap fun place => s.bounds[place]? := by
    refine List.filterMap_congr fun i mem => ?_
    rw [Array.getElem?_push]
    exact if_neg (Nat.ne_of_lt (indexed.lt_of_byLength mem))
  rw [ofLength, ofLength, store, placesOf_addPlace]
  by_cases same : n = b.lower.size
  · rw [if_pos same, List.filterMap_append, kept]
    simp [same]
  · rw [if_neg same, kept]
    simp [Ne.symm same]

structure Lists (s : BoundTable) (bs : List Bound) : Prop where
  indexed : s.Indexed
  toList : s.toList = bs
  ofLength : ∀ n, s.ofLength n = bs.filter fun b => b.lower.size = n

theorem lists_default : ({} : BoundTable).Lists [] :=
  ⟨indexed_default, rfl, fun _ => rfl⟩

theorem Lists.store {bs : List Bound} (lists : s.Lists bs) (b : Bound) :
    (s.store b.lower b.upper).Lists (bs ++ [b]) where
  indexed := lists.indexed.store b.lower b.upper
  toList := by rw [toList_store, lists.toList]
  ofLength n := by rw [ofLength_store lists.indexed, lists.ofLength, List.filter_append]

def storeAll (s : BoundTable) (bs : List Bound) : BoundTable :=
  bs.foldl (fun s b => s.store b.lower b.upper) s

theorem Lists.storeAll {bs : List Bound} (lists : s.Lists bs) (cs : List Bound) :
    (s.storeAll cs).Lists (bs ++ cs) := by
  induction cs generalizing s bs with
  | nil => rwa [List.append_nil]
  | cons c cs ih =>
    rw [List.append_cons]
    exact ih (lists.store c)

/-- Whatever bounds are stored in a new table, a set is inside it exactly if it is between the two sets of one
of them with a literal in its lower set, and a length finds the bounds of this length in the order in which
they were stored. No look-up comes to a place without a bound. -/
theorem lookups_scan (bs : List Bound) :
    (∀ set, (storeAll {} bs).inside set = true ↔
      ∃ b ∈ bs, (∃ l, l ∈ b.lower) ∧ (∀ l ∈ b.lower, l ∈ set) ∧ ∀ l ∈ set, l ∈ b.upper) ∧
    (∀ n, (storeAll {} bs).ofLength n = bs.filter fun b => b.lower.size = n) ∧
    (∀ l, ∀ place ∈ placesOf l (storeAll {} bs).byLiteral, place < (storeAll {} bs).size) ∧
    ∀ n, ∀ place ∈ placesOf n (storeAll {} bs).byLength, place < (storeAll {} bs).size := by
  have lists : (storeAll {} bs).Lists bs := lists_default.storeAll bs
  refine ⟨fun set => ?_, lists.ofLength, fun _ _ => lists.indexed.lt_of_byLiteral,
    fun _ _ => lists.indexed.lt_of_byLength⟩
  rw [inside_iff lists.indexed, Covers, lists.toList]
  simp only [Bound.contains_iff]

def aviary : List Bound :=
  let bird : Literal := ⟨"bird", [], true⟩
  let penguin : Literal := ⟨"penguin", [], true⟩
  let flies : Literal := ⟨"flies", [], true⟩
  [⟨∅, .ofList [penguin.negate]⟩, ⟨.ofList [bird], .ofList [bird, flies, penguin.negate]⟩,
    ⟨.ofList [bird, penguin], .ofList [bird, penguin, flies.negate]⟩,
    ⟨.ofList [penguin], .ofList [penguin, bird, flies.negate]⟩]

theorem lookups_scan_aviary :
    (storeAll {} aviary).inside (.ofList [⟨"bird", [], true⟩, ⟨"penguin", [], true⟩]) = true ∧
    (storeAll {} aviary).inside (.singleton ⟨"penguin", [], false⟩) = false ∧
    ((storeAll {} aviary).ofLength 1).map (fun b => b.lower.toList) =
      [[⟨"bird", [], true⟩], [⟨"penguin", [], true⟩]] ∧
    2 ∈ placesOf ⟨"penguin", [], true⟩ (storeAll {} aviary).byLiteral ∧ 2 < (storeAll {} aviary).size ∧
    3 ∈ placesOf 1 (storeAll {} aviary).byLength ∧ 3 < (storeAll {} aviary).size := by
  obtain ⟨inside, ofLength, byLiteral, byLength⟩ := lookups_scan aviary
  have penguin : 2 ∈ placesOf ⟨"penguin", [], true⟩ (storeAll {} aviary).byLiteral := by decide +kernel
  have single : 3 ∈ placesOf 1 (storeAll {} aviary).byLength := by decide +kernel
  have both : aviary[2] ∈ aviary := List.getElem_mem _
  refine ⟨(inside _).2 ⟨_, both, ⟨⟨"bird", [], true⟩, by decide +kernel⟩, by decide +kernel, by decide +kernel⟩,
    Bool.eq_false_iff.2 fun h => ?_, (congrArg _ (ofLength 1)).trans (by decide +kernel), penguin,
    byLiteral _ 2 penguin, single, byLength 1 3 single⟩
  obtain ⟨b, hb, ⟨l, hl⟩, lower, -⟩ := (inside _).1 h
  have none : ∀ b ∈ aviary, ∀ l ∈ b.lower, ¬ ∀ l ∈ b.lower, l ∈ OrdSet.singleton ⟨"penguin", [], false⟩ := by
    decide +kernel
  exact none b hb l hl lower

end BoundTable

end Defeasible
