import Defeasible.Proofs.Ground.World
import Mathlib.Data.Finset.Powerset
import Mathlib.Data.Finset.Prod

/-! Models counted over a universe of atoms. Each atom of the universe that the clauses do not mention doubles their
number. -/

namespace Defeasible

def World.ofAtoms (atoms : Finset Literal) : World := fun p => decide (p ∈ atoms)

theorem Clause.holds_congr {c : Clause} {w w' : World} (same : ∀ l ∈ c, w l.positive = w' l.positive) :
    c.Holds w ↔ c.Holds w' := by
  refine exists_congr fun l => and_congr_right fun hl => ?_
  rw [Literal.Holds, Literal.Holds, same l hl]

def atomsOf (clauses : List Clause) : Finset Literal :=
  ((clauses.flatMap Clause.toList).map Literal.positive).toFinset

def models (atoms : Finset Literal) (clauses : List Clause) : Finset (Finset Literal) :=
  atoms.powerset.filter fun v => ∀ c ∈ clauses, c.Holds (.ofAtoms v)

/-- The number of valuations of their own atoms that satisfy all clauses. -/
def modelCount (clauses : List Clause) : Nat := (models (atomsOf clauses) clauses).card

variable {atoms v v' : Finset Literal} {clauses : List Clause} {c : Clause} {l p : Literal}

theorem mem_atomsOf_iff : p ∈ atomsOf clauses ↔ ∃ l ∈ clauses.flatMap Clause.toList, l.positive = p := by
  rw [atomsOf, List.mem_toFinset, List.mem_map]

theorem mem_atomsOf : p ∈ atomsOf clauses ↔ ∃ c ∈ clauses, ∃ l ∈ c, l.positive = p := by
  simp only [mem_atomsOf_iff, List.mem_flatMap]
  constructor
  · rintro ⟨l, ⟨c, hc, hl⟩, same⟩
    exact ⟨c, hc, l, hl, same⟩
  · rintro ⟨c, hc, l, hl, same⟩
    exact ⟨l, ⟨c, hc, hl⟩, same⟩

theorem positive_mem_atomsOf (hc : c ∈ clauses) (hl : l ∈ c) : l.positive ∈ atomsOf clauses :=
  mem_atomsOf.2 ⟨c, hc, l, hl, rfl⟩

theorem atomsOf_mono {clauses' : List Clause} (subset : ∀ c ∈ clauses, c ∈ clauses') :
    atomsOf clauses ⊆ atomsOf clauses' := by
  intro p hp
  obtain ⟨c, hc, rest⟩ := mem_atomsOf.1 hp
  exact mem_atomsOf.2 ⟨c, subset c hc, rest⟩

theorem mem_models : v ∈ models atoms clauses ↔ v ⊆ atoms ∧ ∀ c ∈ clauses, c.Holds (.ofAtoms v) := by
  rw [models, Finset.mem_filter, Finset.mem_powerset]

theorem card_models_le (atoms : Finset Literal) (clauses : List Clause) :
    (models atoms clauses).card ≤ Nat.pow 2 atoms.card :=
  (Finset.card_filter_le _ _).trans (Finset.card_powerset atoms).le

theorem forall_holds_congr (same : v ∩ atomsOf clauses = v' ∩ atomsOf clauses) :
    (∀ c ∈ clauses, c.Holds (.ofAtoms v)) ↔ ∀ c ∈ clauses, c.Holds (.ofAtoms v') := by
  refine forall₂_congr fun c hc => Clause.holds_congr fun l hl => decide_eq_decide.2 ?_
  have occurs := positive_mem_atomsOf hc hl
  rw [← and_iff_left (a := l.positive ∈ v) occurs, ← and_iff_left (a := l.positive ∈ v') occurs,
    ← Finset.mem_inter, ← Finset.mem_inter, same]

theorem union_parts {a : Finset Literal} (within : v ⊆ a) (outside : v' ⊆ atoms \ a) :
    (v ∪ v') ∩ a = v ∧ (v ∪ v') \ a = v' := by
  have apart : Disjoint v' a := Finset.sdiff_disjoint.mono_left outside
  constructor
  · rw [Finset.union_inter_distrib_right, Finset.disjoint_iff_inter_eq_empty.1 apart, Finset.union_empty,
      Finset.inter_eq_left.2 within]
  · rw [Finset.union_sdiff_distrib, Finset.sdiff_eq_empty_iff_subset.2 within, Finset.empty_union,
      Finset.sdiff_eq_self_of_disjoint apart]

theorem card_models (subset : atomsOf clauses ⊆ atoms) :
    (models atoms clauses).card = modelCount clauses * Nat.pow 2 (atoms \ atomsOf clauses).card := by
  have pairs : (models atoms clauses).card =
      (models (atomsOf clauses) clauses ×ˢ (atoms \ atomsOf clauses).powerset).card := by
    refine Finset.card_nbij' (fun v => (v ∩ atomsOf clauses, v \ atomsOf clauses)) (fun v => v.1 ∪ v.2)
      (fun v hv => ?_) (fun v hv => ?_) (fun v hv => ?_) fun v hv => ?_
    · obtain ⟨within, holds⟩ := mem_models.1 hv
      refine Finset.mem_product.2 ⟨mem_models.2 ⟨Finset.inter_subset_right, ?_⟩, Finset.mem_powerset.2 ?_⟩
      · refine (forall_holds_congr ?_).1 holds
        rw [Finset.inter_assoc, Finset.inter_self]
      · exact Finset.sdiff_subset_sdiff within (Finset.Subset.refl _)
    · obtain ⟨first, second⟩ := Finset.mem_product.1 hv
      obtain ⟨within, holds⟩ := mem_models.1 first
      have outside := Finset.mem_powerset.1 second
      refine mem_models.2 ⟨?_, (forall_holds_congr ?_).1 holds⟩
      · exact Finset.union_subset (within.trans subset) (outside.trans Finset.sdiff_subset)
      · rw [(union_parts within outside).1, Finset.inter_eq_left.2 within]
    · exact (Finset.union_comm _ _).trans (Finset.sdiff_union_inter v _)
    · obtain ⟨first, second⟩ := Finset.mem_product.1 hv
      have parts := union_parts (mem_models.1 first).1 (Finset.mem_powerset.1 second)
      exact Prod.ext parts.1 parts.2
  rw [pairs, Finset.card_product, Finset.card_powerset]
  rfl

end Defeasible
