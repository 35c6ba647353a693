import Defeasible.Proofs.Pcg

/-! What settings come to. A setting refuses what is beyond its bounds, and NaN is beyond none, so that not all settings
are probable. -/

universe u

namespace Defeasible

/-! ### What settings take -/

structure Setting.Within {α : Type u} [LT α] (s : Setting α) (low high : α) : Prop where
  low_eq : s.low = low
  high_eq : s.high = high
  not_below : ¬ s.value < low
  not_above : ¬ high < s.value

theorem Setting.Within.set {α : Type u} [LT α] [DecidableLT α] {s s' : Setting α} {low high value : α}
    (within : s.Within low high) (taken : s.set value = .ok s') : s'.Within low high := by
  unfold Setting.set at taken
  split at taken
  · cases taken
  · next inside =>
    rw [within.low_eq, within.high_eq, not_or] at inside
    cases taken
    exact ⟨within.low_eq, within.high_eq, inside.1, inside.2⟩

theorem Setting.Within.change {α : Type u} [LT α] [DecidableLT α] {s s' : Setting α} {low high : α}
    {value? : Option α} (within : s.Within low high) (changed : Settings.change s value? = .ok s') :
    s'.Within low high := by
  cases value? with
  | none =>
    cases changed
    exact within
  | some value => exact within.set changed

namespace Settings

inductive Reached : Settings → Prop
  | default : Reached {}
  | update {s s' : Settings} {u : Update} (reached : Reached s) (updated : s.update u = .ok s') : Reached s'

variable {s s' : Settings} {u : Update}

theorem changed_of_update (updated : s.update u = .ok s') :
    change s.polarityLean u.polarityLean = .ok s'.polarityLean ∧
      change s.randomDecisionBias u.randomDecisionBias = .ok s'.randomDecisionBias := by
  simp only [update, bind, Except.bind, pure, Except.pure] at updated
  repeat' split at updated
  all_goals cases updated
  exact ⟨‹_›, ‹_›⟩

theorem Reached.within (reached : Reached s) : s.polarityLean.Within 0 1 ∧ s.randomDecisionBias.Within 0 1 := by
  induction reached with
  | default =>
    exact ⟨⟨rfl, rfl, by decide +kernel, by decide +kernel⟩, ⟨rfl, rfl, by decide +kernel, by decide +kernel⟩⟩
  | update _ updated ih =>
    obtain ⟨lean, bias⟩ := changed_of_update updated
    exact ⟨ih.1.change lean, ih.2.change bias⟩

/-- Of the settings that are reached only a lean that is no number is improbable, and only where it is drawn with. -/
theorem probable_iff (reached : Reached s) :
    s.Probable ↔ (s.phaseSaving.value = false → s.polarityLean.value.isNaN = false) := by
  obtain ⟨lean, bias⟩ := reached.within
  constructor
  · exact fun probable unsaved => (Float.isNaN_of_le (probable.lean unsaved).1).2
  · refine fun number => ⟨fun unsaved => ?_, fun positive => ?_⟩
    · have number := number unsaved
      exact ⟨Float.le_of_not_lt number (by decide +kernel) lean.not_below,
        Float.le_of_not_lt (by decide +kernel) number lean.not_above⟩
    · have number := (Float.isNaN_of_le (Float.le_of_lt positive)).2
      exact Float.le_of_not_lt (by decide +kernel) number bias.not_above

def undecided : Settings where
  polarityLean := ⟨"polarity_lean", 0, 1, 0 / 0⟩
  phaseSaving := ⟨"phase_saving", false, true, false⟩

theorem reached_undecided : Reached undecided :=
  .update (u := { polarityLean := some (0 / 0), phaseSaving := some false }) .default rfl

end Settings

end Defeasible
