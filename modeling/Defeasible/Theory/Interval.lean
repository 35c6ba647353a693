import Defeasible.Theory.Query

/-! Theories whose clauses have an interval of necessities each. Evidence drowns what it drowns under
every choice from the intervals. -/

namespace Defeasible

structure IntervalTheory where
  lower : Theory := {}
  upper : Theory := {}

namespace IntervalTheory

def addRule (t : IntervalTheory) (c : Clause) (low high : Necessity) : IntervalTheory :=
  ⟨t.lower.addRule c low, t.upper.addRule c high⟩

def ofRules (rules : List (Clause × Necessity × Necessity)) : IntervalTheory :=
  rules.foldl (fun t (c, low, high) => t.addRule c low high) {}

/-- The last necessity below the preferred level, or this level itself if it is the lowest. -/
def drowningLevel (weights : List Necessity) (preferred : Necessity) : Necessity :=
  ((weights.takeWhile (· < preferred)).getLast?).getD preferred

/-- The lower theory without the levels that the evidence drowns, unless the evidence is inconsistent
with the upper theory. -/
def undrowned (t : IntervalTheory) (evidence : Evidence) : Query (Option Theory) := do
  match ← t.upper.solve evidence with
  | none => return none
  | some (_, preferred) =>
    return some (t.lower.strictlyAbove (drowningLevel t.upper.weights preferred))

def solve (t : IntervalTheory) (evidence : Evidence) : Query (Option (Witness × Necessity)) := do
  match ← t.undrowned evidence with
  | none => return none
  | some theory => theory.solve evidence

def implies (t : IntervalTheory) (evidence : Evidence) (consequent : Clause) : Query Bool := do
  match ← t.undrowned evidence with
  | none => return false
  | some theory => theory.implies evidence consequent

def text (t : IntervalTheory) : String := "Upper\n" ++ t.upper.text ++ "Lower\n" ++ t.lower.text

end IntervalTheory

end Defeasible
