import Defeasible.Ground.Solver
import Mathlib.Tactic.Common

/-! What ground literals and clauses mean. A world says of every proposition whether it is true; the world
of a witness is the one where just its literals are. -/

namespace Defeasible

/-- A truth value for every proposition, which is given by its positive literal. -/
abbrev World := Literal → Bool

def Witness.world (w : Witness) : World := w.has

namespace Literal

variable {w : World} {l : Literal}

def Holds (w : World) (l : Literal) : Prop := w l.positive = l.polarity

instance (w : World) (l : Literal) : Decidable (l.Holds w) :=
  inferInstanceAs (Decidable (w l.positive = l.polarity))

@[simp] theorem positive_negate (l : Literal) : l.negate.positive = l.positive := rfl

@[simp] theorem holds_negate : l.negate.Holds w ↔ ¬ l.Holds w := by
  rw [Holds, Holds, positive_negate]
  change w l.positive = !l.polarity ↔ _
  cases w l.positive <;> cases l.polarity <;> simp

end Literal

namespace Clause

variable {w : World} {c : Clause} {l : Literal}

def Holds (w : World) (c : Clause) : Prop := ∃ l ∈ c, l.Holds w

instance (w : World) (c : Clause) : Decidable (c.Holds w) :=
  decidable_of_iff (∃ l ∈ c.toList, l.Holds w) Iff.rfl

theorem mem_unit {m : Literal} : m ∈ unit l ↔ m = l := OrdSet.mem_singleton

@[simp] theorem holds_unit : (unit l).Holds w ↔ l.Holds w := by
  simp only [Holds, mem_unit, exists_eq_left]

theorem unit_can_fail (l : Literal) : ¬ ∀ w, (unit l).Holds w := by
  intro always
  have holds : l.Holds fun _ => !l.polarity := holds_unit.1 (always _)
  exact (Bool.not_eq_self _).1 holds

theorem ground_unit (ground : l.isGround = true) : (unit l).isGround = true :=
  List.all_eq_true.2 (List.forall_mem_singleton.2 ground)

theorem forall_negated : (∀ l ∈ c.negated, l.Holds w) ↔ ¬ c.Holds w := by
  simp only [negated, List.forall_mem_map, Literal.holds_negate, Holds, not_exists, not_and]
  rfl

theorem isTautology_iff : c.isTautology = true ↔ ∀ w, c.Holds w := by
  simp only [isTautology, List.any_eq_true, Bool.and_eq_true, Bool.not_eq_true']
  constructor
  · rintro ⟨l, mem, -, opposite⟩ w
    by_cases holds : l.Holds w
    · exact ⟨l, mem, holds⟩
    · exact ⟨l.negate, OrdSet.has_eq_true.1 opposite, Literal.holds_negate.2 holds⟩
  · intro always
    obtain ⟨l, mem, holds⟩ := always fun p => !c.has p
    have negative : l.polarity = false := by
      cases polarity : l.polarity with
      | false => rfl
      | true =>
        have same : l.positive = l := by rw [Literal.positive, ← polarity]
        have has : c.has l = true := OrdSet.has_eq_true.2 mem
        rw [Literal.Holds, same, has, polarity] at holds
        cases holds
    refine ⟨l, mem, negative, ?_⟩
    have opposite : l.negate = l.positive := by rw [Literal.negate, negative]; rfl
    rw [Literal.Holds, negative, Bool.not_eq_false'] at holds
    rwa [opposite]

end Clause

/-- A witness where the clauses and the literals hold, or the certainty that there is none. -/
def Settles (clauses : List Clause) (literals : List Literal) : Option Witness → Prop
  | some witness => (∀ c ∈ clauses, c.Holds witness.world) ∧ ∀ l ∈ literals, l.Holds witness.world
  | none => ∀ w, (∀ c ∈ clauses, c.Holds w) → ¬ ∀ l ∈ literals, l.Holds w

theorem Settles.isSome_iff {clauses : List Clause} {literals : List Literal} {answer : Option Witness}
    (settles : Settles clauses literals answer) :
    answer.isSome = true ↔ ∃ w, (∀ c ∈ clauses, c.Holds w) ∧ ∀ l ∈ literals, l.Holds w := by
  cases answer with
  | some witness => exact iff_of_true rfl ⟨witness.world, settles⟩
  | none => exact iff_of_false nofun fun ⟨w, hc, hl⟩ => settles w hc hl

end Defeasible
