import Defeasible.Theory.Query

/-! Theories without the levels that are drowned before there is any evidence. -/

namespace Defeasible.Theory

/-- The theory from the preferred level of no evidence on. If there is none, the theory is empty and has lost its hard
rules too, be they inconsistent or not. -/
def withoutDrowned (t : Theory) : Query Theory := do
  match ← t.solve ∅ with
  | none => return { settings := t.settings }
  | some (_, n) => return if t.minNecessity? = some n then t else t.above n

end Defeasible.Theory
