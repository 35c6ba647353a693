import Defeasible.Error

/-! Settings of the solver and of the procedures built on it. A setting has a name and bounds, and only
takes values within the bounds. Times are in nanoseconds, and zero is no limit. -/

universe u

namespace Defeasible

structure Setting (α : Type u) where
  name : String
  low : α
  high : α
  value : α

/-- The setting with a new value. A value that compares with neither bound is taken. -/
def Setting.set {α : Type u} [LT α] [DecidableLT α] (s : Setting α) (value : α) :
    Except SettingsError (Setting α) :=
  if value < s.low ∨ s.high < value then .error (.outOfRange s.name) else .ok { s with value }

structure Settings where
  lubyUnit : Setting Nat := ⟨"luby", 0, UInt32.size - 1, 128⟩
  polarityLean : Setting Float := ⟨"polarity_lean", 0, 1, 0⟩
  randomDecisionBias : Setting Float := ⟨"random_decision_bias", 0, 1, 0⟩
  phaseSaving : Setting Bool := ⟨"phase_saving", false, true, true⟩
  restart : Setting Bool := ⟨"restart", false, true, true⟩
  /-- After a conflict, new activity counts for more by the inverse of this factor. -/
  activityDecay : Setting Float :=
    ⟨"activity_decay", Float.ofBits 0x10000000000000, 1, Float.ofBits 0x3fee666666666666⟩
  timeLimit : Setting Nat := ⟨"time_limit", 0, UInt64.size * 1000000000 - 1, 0⟩
  optimisationTimeout : Setting Nat := ⟨"optimisation_timeout", 0, UInt64.size * 1000000000 - 1, 0⟩
  caching : Setting Bool := ⟨"caching", false, true, false⟩
  workers : Setting Nat := ⟨"workers", 1, 256, 1⟩
  maxAntecedentLength : Setting Nat := ⟨"max_antecedent_length", 0, UInt64.size - 1, 2⟩

namespace Settings

instance : Inhabited Settings := ⟨{}⟩

def solveLimit? (s : Settings) : Option Nat :=
  if s.timeLimit.value = 0 then none else some s.timeLimit.value

def optimisationLimit? (s : Settings) : Option Nat :=
  if s.optimisationTimeout.value = 0 then none else some s.optimisationTimeout.value

structure Update where
  lubyUnit : Option Nat := none
  polarityLean : Option Float := none
  randomDecisionBias : Option Float := none
  phaseSaving : Option Bool := none
  restart : Option Bool := none
  activityDecay : Option Float := none
  timeLimit : Option Nat := none
  optimisationTimeout : Option Nat := none
  caching : Option Bool := none
  workers : Option Nat := none
  maxAntecedentLength : Option Nat := none

def change {α : Type u} [LT α] [DecidableLT α] (s : Setting α) : Option α → Except SettingsError (Setting α)
  | none => .ok s
  | some value => s.set value

def update (s : Settings) (u : Update) : Except SettingsError Settings := do
  return {
    lubyUnit := ← change s.lubyUnit u.lubyUnit
    polarityLean := ← change s.polarityLean u.polarityLean
    randomDecisionBias := ← change s.randomDecisionBias u.randomDecisionBias
    phaseSaving := ← change s.phaseSaving u.phaseSaving
    restart := ← change s.restart u.restart
    activityDecay := ← change s.activityDecay u.activityDecay
    timeLimit := ← change s.timeLimit u.timeLimit
    optimisationTimeout := ← change s.optimisationTimeout u.optimisationTimeout
    caching := ← change s.caching u.caching
    workers := ← change s.workers u.workers
    maxAntecedentLength := ← change s.maxAntecedentLength u.maxAntecedentLength }

end Settings

end Defeasible
