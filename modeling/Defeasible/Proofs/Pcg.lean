import Defeasible.Pcg
import Defeasible.Proofs.Float
import Defeasible.Settings
import Mathlib.Tactic.Ring

/-! The draws made from a stream of words: a draw below `n` is below `n`, and a draw with a probability
from zero to one does not fail. Nothing else about these two draws, `below_ok` and `chance_ok`, is used of them, so that
others in their place would do. -/

namespace Defeasible

namespace Pcg

theorem scaled_lt {words n : Nat} (draw : Pcg → Nat × Pcg) (g : Pcg) (pos : 0 < n)
    (bound : (draw g).1 < words) : (scaled words n draw g).1 < n := by
  unfold scaled
  have hdiv := Nat.div_add_mod ((draw g).1 * n) words
  have hhigh : (draw g).1 * n / words < n :=
    Nat.div_lt_of_lt_mul (Nat.mul_lt_mul_of_pos_right bound pos)
  -- the high part is `n - 1` only where nothing can carry into it
  have hcarry : words - n < (draw g).1 * n % words → (draw g).1 * n / words + 1 < n := by
    intro hlow
    by_contra hge
    have htop : (draw g).1 * n / words = n - 1 := by omega
    rw [htop] at hdiv
    have h1 : ((draw g).1 + 1) * n ≤ words * n := Nat.mul_le_mul_right n bound
    have h2 : words * (n - 1) + words = words * n := by
      rw [← Nat.mul_succ]
      congr 1
      omega
    rw [Nat.succ_mul] at h1
    omega
  dsimp only
  split
  · next hlow =>
    have := hcarry hlow
    dsimp only
    split <;> omega
  · exact hhigh

theorem below_ok {n : Nat} (g : Pcg) (pos : 0 < n) : ∃ i, (below n g).1 = .ok i ∧ i < n := by
  unfold below
  rw [if_neg (by omega)]
  split
  · have lt := scaled_lt (fun g => (g.next.1.toNat, g.next.2)) g pos (UInt32.toNat_lt_size _)
    revert lt
    rcases scaled UInt32.size n (fun g => (g.next.1.toNat, g.next.2)) g with ⟨x, g'⟩
    intro lt
    exact ⟨x, rfl, lt⟩
  · have lt := scaled_lt (fun g => (g.nextLong.1.toNat, g.nextLong.2)) g pos
      (UInt64.toNat_lt_size _)
    revert lt
    rcases scaled UInt64.size n (fun g => (g.nextLong.1.toNat, g.nextLong.2)) g with ⟨x, g'⟩
    intro lt
    exact ⟨x, rfl, lt⟩

theorem chance_ok {p : Float} (g : Pcg) (low : 0 ≤ p) (high : p ≤ 1) : ∃ b, (chance p g).1 = .ok b := by
  unfold chance
  by_cases lt : p < 1
  · rw [if_pos (by simp [low, lt])]
    exact ⟨_, rfl⟩
  · have eq : (p == 1) = true := (Float.lt_or_beq_of_le high).resolve_left lt
    rw [if_neg (by simp [lt]), if_pos eq]
    exact ⟨true, rfl⟩

end Pcg

/-- Whether no draw of the settings is improbable: the lean is drawn with only if phases are not saved, and the bias
only if it is positive. -/
structure Settings.Probable (s : Settings) : Prop where
  lean : s.phaseSaving.value = false → 0 ≤ s.polarityLean.value ∧ s.polarityLean.value ≤ 1
  bias : 0 < s.randomDecisionBias.value → s.randomDecisionBias.value ≤ 1

namespace Settings

theorem probable_of_phaseSaving {s : Settings} (saving : s.phaseSaving.value = true)
    (bias : s.randomDecisionBias.value ≤ 1) : s.Probable :=
  ⟨fun unsaved => absurd saving (unsaved ▸ Bool.false_ne_true), fun _ => bias⟩

theorem probable_default : ({} : Settings).Probable := probable_of_phaseSaving rfl (by decide +kernel)

end Settings

end Defeasible
