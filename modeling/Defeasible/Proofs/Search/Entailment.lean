import Defeasible.Search.Lit
import Mathlib.Tactic.Common

/-! What literals and clauses mean: truth under a valuation, models, and consequence. -/

namespace Defeasible.Search

abbrev Valuation := Atom → Bool

def Lit.Holds (v : Valuation) (l : Lit) : Prop := v l.atom = l.polarity

@[simp] theorem Lit.holds_negate (v : Valuation) (l : Lit) : l.negate.Holds v ↔ ¬ l.Holds v := by
  simp only [Holds, negate]
  cases v l.atom <;> cases l.polarity <;> simp

theorem Lit.negate_ne (l : Lit) : l.negate ≠ l := by
  intro h
  have := congrArg Lit.polarity h
  simp [negate] at this

theorem Lit.eq_or_eq_negate {l m : Lit} (h : l.atom = m.atom) : l = m ∨ l = m.negate := by
  obtain ⟨a, p⟩ := l
  obtain ⟨b, q⟩ := m
  obtain rfl : a = b := h
  cases p <;> cases q <;> simp [negate]

theorem Lit.watchIndex_inj {l m : Lit} (h : l.watchIndex = m.watchIndex) : l = m := by
  obtain ⟨(a : Nat), p⟩ := l
  obtain ⟨(b : Nat), q⟩ := m
  replace h : 2 * a + p.toNat = 2 * b + q.toNat := h
  have hp := p.toNat_le
  have hq := q.toNat_le
  obtain rfl : a = b := by omega
  obtain rfl : p = q := by cases p <;> cases q <;> simp_all
  rfl

theorem Lit.watchIndex_lt {l : Lit} {n : Nat} (h : l.atom < n) : l.watchIndex < 2 * n := by
  obtain ⟨(a : Nat), p⟩ := l
  replace h : a < n := h
  have hp := p.toNat_le
  change 2 * a + p.toNat < 2 * n
  omega

def Satisfies (v : Valuation) (clause : List Lit) : Prop := ∃ l ∈ clause, l.Holds v

def Models (v : Valuation) (clauses : List (List Lit)) : Prop := ∀ c ∈ clauses, Satisfies v c

def Entails (clauses : List (List Lit)) (clause : List Lit) : Prop :=
  ∀ v, Models v clauses → Satisfies v clause

theorem Satisfies.of_subset {v : Valuation} {c d : List Lit} (h : Satisfies v c) (sub : c ⊆ d) :
    Satisfies v d := by
  obtain ⟨l, hl, hv⟩ := h
  exact ⟨l, sub hl, hv⟩

theorem Models.of_subset {v : Valuation} {cs ds : List (List Lit)} (h : Models v ds) (sub : cs ⊆ ds) :
    Models v cs :=
  fun c hc => h c (sub hc)

theorem Entails.of_subset {clauses : List (List Lit)} {c d : List Lit} (h : Entails clauses c)
    (sub : c ⊆ d) : Entails clauses d :=
  fun v hv => (h v hv).of_subset sub

theorem Entails.weaken {clauses more : List (List Lit)} {c : List Lit} (h : Entails clauses c)
    (sub : clauses ⊆ more) : Entails more c :=
  fun v hv => h v (hv.of_subset sub)

theorem Entails.of_mem {clauses : List (List Lit)} {c : List Lit} (h : c ∈ clauses) :
    Entails clauses c :=
  fun _ hv => hv c h

theorem entails_singleton {clauses : List (List Lit)} {l : Lit} :
    Entails clauses [l] ↔ ∀ v, Models v clauses → l.Holds v := by
  simp [Entails, Satisfies]

theorem Entails.drop_false {clauses : List (List Lit)} {c d : List Lit} (h : Entails clauses c)
    (false : ∀ l ∈ c, l ∈ d ∨ Entails clauses [l.negate]) : Entails clauses d := by
  intro v hv
  obtain ⟨l, hl, holds⟩ := h v hv
  rcases false l hl with hd | hneg
  · exact ⟨l, hd, holds⟩
  · have := entails_singleton.1 hneg v hv
    exact absurd holds ((Lit.holds_negate v l).1 this)

end Defeasible.Search
