import Defeasible.Luby
import Mathlib.Algebra.Group.Nat.Defs
import Mathlib.Data.Nat.Size
import Mathlib.Logic.Function.Iterate

/-! The elements of the restart sequence by recursion on their place, and the two words that give them one after
the other. Until the first word is at its bound, the words do what two numbers without a bound do. -/

namespace Defeasible

/-- The element of the restart sequence at a place, counted from one. The place `2 ^ k - 1` has `2 ^ (k - 1)`,
and the places before it, from `2 ^ (k - 1)` on, have what the sequence begins with. -/
def lubyElement (i : Nat) : Nat :=
  if last : i + 1 = 2 ^ i.size then 2 ^ (i.size - 1) else lubyElement (i - 2 ^ (i.size - 1) + 1)
termination_by i
decreasing_by
  have pos : i ≠ 0 := by
    rintro rfl
    exact last rfl
  have one : i ≠ 1 := by
    rintro rfl
    exact last rfl
  have size : 1 < i.size := Nat.lt_size.2 (by omega)
  have le : 2 ^ (i.size - 1) ≤ i := Nat.lt_size.1 (by omega)
  have two : 2 ^ 1 ≤ 2 ^ (i.size - 1) := Nat.pow_le_pow_right (by decide) (by omega)
  omega

theorem size_eq_succ {i k : Nat} (le : 2 ^ k ≤ i) (lt : i < 2 ^ (k + 1)) : i.size = k + 1 :=
  Nat.le_antisymm (Nat.size_le.2 lt) (Nat.lt_size.2 le)

theorem lubyElement_last (k : Nat) : lubyElement (2 ^ (k + 1) - 1) = 2 ^ k := by
  have pos : 0 < 2 ^ k := Nat.two_pow_pos k
  have size : (2 ^ (k + 1) - 1).size = k + 1 := size_eq_succ (by omega) (by omega)
  rw [lubyElement, size, dif_pos (by omega), Nat.add_sub_cancel]

theorem lubyElement_again {i k : Nat} (le : 2 ^ k ≤ i) (lt : i + 1 < 2 ^ (k + 1)) :
    lubyElement i = lubyElement (i - 2 ^ k + 1) := by
  have size : i.size = k + 1 := size_eq_succ le (by omega)
  rw [lubyElement, size, dif_neg (by omega), Nat.add_sub_cancel]

example : (List.range 15).map (fun i => lubyElement (i + 1)) = [1, 1, 2, 1, 1, 2, 4, 1, 1, 2, 1, 1, 2, 4, 8] := by
  decide +kernel

/-! ### Two numbers without a bound -/

structure Doubling where
  counter : Nat
  power : Nat

namespace Doubling

variable {a c k n : Nat}

def step (d : Doubling) : Doubling :=
  if 2 * d.power ∣ d.counter then ⟨d.counter, 2 * d.power⟩ else ⟨d.counter + 1, 1⟩

theorem step_of_dvd (d : Doubling) (dvd : 2 * d.power ∣ d.counter) : d.step = ⟨d.counter, 2 * d.power⟩ :=
  if_pos dvd

theorem step_of_not_dvd (d : Doubling) (count : ¬ 2 * d.power ∣ d.counter) : d.step = ⟨d.counter + 1, 1⟩ :=
  if_neg count

theorem counter_le_step (d : Doubling) : d.counter ≤ d.step.counter := by
  by_cases dvd : 2 * d.power ∣ d.counter
  · exact Nat.le_of_eq (congrArg counter (d.step_of_dvd dvd)).symm
  · rw [d.step_of_not_dvd dvd]
    exact Nat.le_succ _

theorem iterate_doubles (dvd : 2 ^ k ∣ c) : step^[k] ⟨c, 1⟩ = ⟨c, 2 ^ k⟩ := by
  induction k with
  | zero => rfl
  | succ k ih =>
    rw [Function.iterate_succ_apply', ih (Nat.dvd_trans (Nat.pow_dvd_pow 2 k.le_succ) dvd)]
    rw [Nat.pow_succ'] at dvd ⊢
    exact step_of_dvd _ dvd

theorem not_dvd_add (dvd : 2 ^ (k + 1) ∣ a) : ¬ 2 * 2 ^ k ∣ a + 2 ^ k := by
  rw [← Nat.pow_succ', Nat.dvd_add_right dvd]
  exact Nat.not_dvd_of_pos_of_lt (Nat.two_pow_pos k) (Nat.pow_lt_pow_right (by decide) k.lt_succ_self)

/-- From the number behind a multiple of `2 ^ k`, the counter comes to the next multiple in `2 ^ (k + 1) - 2 - k`
steps. Half way there, at an odd multiple of half the power, it waits for `k - 1` doublings. -/
theorem iterate_block (dvd : 2 ^ k ∣ a) (steps : n + k + 2 = 2 ^ (k + 1)) :
    step^[n] ⟨a + 1, 1⟩ = ⟨a + 2 ^ k, 1⟩ := by
  induction k generalizing a n with
  | zero =>
    obtain rfl : n = 0 := by omega
    rfl
  | succ k ih =>
    obtain ⟨m, half⟩ : ∃ m, m + k + 2 = 2 ^ (k + 1) := by
      have := k.lt_two_pow_self
      exact ⟨2 ^ (k + 1) - k - 2, by omega⟩
    obtain rfl : n = m + (1 + (k + m)) := by omega
    have dvd' : 2 ^ k ∣ a := Nat.dvd_trans (Nat.pow_dvd_pow 2 k.le_succ) dvd
    have middle : 2 ^ k ∣ a + 2 ^ k := Nat.dvd_add dvd' (Nat.dvd_refl _)
    have count : step^[1] ⟨a + 2 ^ k, 2 ^ k⟩ = ⟨a + 2 ^ k + 1, 1⟩ := step_of_not_dvd _ (not_dvd_add dvd)
    rw [Function.iterate_add_apply, Function.iterate_add_apply, Function.iterate_add_apply, ih dvd' half,
      iterate_doubles middle, count, ih middle half]
    rw [Nat.pow_succ, Nat.mul_two, Nat.add_assoc]

theorem iterate_top (dvd : 2 ^ k ∣ a) (steps : n + 2 = 2 ^ (k + 1)) :
    step^[n] ⟨a + 1, 1⟩ = ⟨a + 2 ^ k, 2 ^ k⟩ := by
  have := k.lt_two_pow_self
  obtain ⟨m, rfl⟩ : ∃ m, n = k + m := ⟨n - k, by omega⟩
  rw [Function.iterate_add_apply, iterate_block dvd (by omega)]
  exact iterate_doubles (Nat.dvd_add dvd (Nat.dvd_refl _))

/-- The powers are the elements of the sequence, from any multiple of a great enough power of two on. -/
theorem power_iterate (dvd : 2 ^ k ∣ a) (lt : n + 1 < 2 ^ (k + 1)) :
    (step^[n] ⟨a + 1, 1⟩).power = lubyElement (n + 1) := by
  induction k generalizing a n with
  | zero =>
    obtain rfl : n = 0 := by omega
    exact (lubyElement_last 0).symm
  | succ k ih =>
    have dvd' : 2 ^ k ∣ a := Nat.dvd_trans (Nat.pow_dvd_pow 2 k.le_succ) dvd
    have pos := Nat.two_pow_pos k
    rcases Nat.lt_or_ge (n + 1) (2 ^ (k + 1)) with first | past
    · exact ih dvd' first
    rcases Nat.lt_or_ge (n + 2) (2 ^ (k + 1 + 1)) with second | last
    · -- the first half has ended, and the second begins behind the counter's next multiple of `2 ^ k`
      obtain ⟨half, top⟩ : ∃ half, half + 2 = 2 ^ (k + 1) := ⟨2 ^ (k + 1) - 2, by omega⟩
      obtain ⟨m, rfl⟩ : ∃ m, n = m + (half + 1) := ⟨n - (half + 1), by omega⟩
      have count : step^[half + 1] ⟨a + 1, 1⟩ = ⟨a + 2 ^ k + 1, 1⟩ := by
        rw [Function.iterate_succ_apply', iterate_top dvd' top]
        exact step_of_not_dvd _ (not_dvd_add dvd)
      rw [Function.iterate_add_apply, count, ih (Nat.dvd_add dvd' (Nat.dvd_refl _)) (by omega),
        lubyElement_again (i := m + (half + 1) + 1) (k := k + 1) (by omega) (by omega)]
      congr 1
      omega
    · have place : n + 1 = 2 ^ (k + 1 + 1) - 1 := by omega
      rw [iterate_top dvd (by omega), place, lubyElement_last]

theorem step_iterate_before (dvd : 2 ^ k ∣ a) (steps : n + k + 3 = 2 ^ (k + 1)) :
    (step^[n] ⟨a + 1, 1⟩).step = ⟨a + 2 ^ k, 1⟩ := by
  rw [← Function.iterate_succ_apply' step, iterate_block dvd (by omega)]

theorem counter_iterate_mono {m : Nat} (d : Doubling) (le : m ≤ n) :
    (step^[m] d).counter ≤ (step^[n] d).counter := by
  induction le with
  | refl => exact Nat.le_refl _
  | step _ ih =>
    rw [Function.iterate_succ_apply']
    exact Nat.le_trans ih (counter_le_step _)

theorem counts_of_step {d : Doubling} (one : d.step = ⟨c + 1, 1⟩) : ¬ 2 * d.power ∣ d.counter ∧ d.counter = c := by
  by_cases dvd : 2 * d.power ∣ d.counter
  · rw [d.step_of_dvd dvd] at one
    have even : 2 * d.power = 1 := congrArg power one
    omega
  · rw [d.step_of_not_dvd dvd] at one
    exact ⟨dvd, Nat.succ.inj (congrArg counter one)⟩

end Doubling

namespace Luby

open Doubling (step)

variable {l : Luby} {d : Doubling} {n : Nat}

theorem getLsbD_and_neg {w i : Nat} (x : BitVec w) (lt : i < w) :
    (x &&& -x).getLsbD i = true ↔ x.getLsbD i = true ∧ ∀ j < i, x.getLsbD j = false := by
  rw [BitVec.getLsbD_and, BitVec.getLsbD_neg, decide_eq_true lt, Bool.true_and]
  cases x.getLsbD i with
  | false => simp
  | true => simp

theorem lowestBit_eq_iff {u v : UInt32} {k : Nat} (power : v.toNat = 2 ^ k) (dvd : 2 ^ k ∣ u.toNat) :
    u &&& (0 - u) = v ↔ ¬ 2 * 2 ^ k ∣ u.toNat := by
  have lt : k < 32 := (Nat.pow_lt_pow_iff_right (a := 2) (by decide)).1 (power ▸ v.toNat_lt)
  obtain ⟨m, product⟩ := dvd
  have bit (i : Nat) : u.toBitVec.getLsbD i = (decide (k ≤ i) && m.testBit (i - k)) := by
    rw [BitVec.getLsbD, UInt32.toNat_toBitVec, product, Nat.testBit_two_pow_mul]
  have bit_power (i : Nat) : v.toBitVec.getLsbD i = decide (k = i) := by
    rw [BitVec.getLsbD, UInt32.toNat_toBitVec, power, Nat.testBit_two_pow]
  have odd : ¬ 2 * 2 ^ k ∣ u.toNat ↔ u.toBitVec.getLsbD k = true := by
    rw [product, Nat.mul_comm 2, Nat.mul_dvd_mul_iff_left (Nat.two_pow_pos k), bit, decide_eq_true (Nat.le_refl k),
      Bool.true_and, Nat.sub_self, Nat.testBit_zero, decide_eq_true_eq]
    omega
  rw [odd, UInt32.zero_sub, ← UInt32.toBitVec_inj, UInt32.toBitVec_and, UInt32.toBitVec_neg]
  constructor
  · intro same
    have lowest := bit_power k
    rw [← same, decide_eq_true rfl, getLsbD_and_neg _ lt] at lowest
    exact lowest.1
  · intro set
    refine BitVec.eq_of_getLsbD_eq fun i small => Bool.eq_iff_iff.2 ?_
    rw [getLsbD_and_neg _ small, bit_power, decide_eq_true_eq]
    constructor
    · rintro ⟨there, lower⟩
      by_contra ne
      have le : k ≤ i := by
        rw [bit, Bool.and_eq_true, decide_eq_true_eq] at there
        exact there.1
      rw [lower k (Nat.lt_of_le_of_ne le ne)] at set
      cases set
    · rintro rfl
      refine ⟨set, fun j below => ?_⟩
      rw [bit, decide_eq_false (Nat.not_le.2 below), Bool.false_and]

def CountsPast (l : Luby) : Prop := l.u &&& (0 - l.u) = l.v ∧ UInt32.size ≤ l.u.toNat + 1

def DoublesPast (l : Luby) : Prop := ¬ l.u &&& (0 - l.u) = l.v ∧ UInt32.size ≤ 2 * l.v.toNat

theorem next_cases (l : Luby) :
    (l.CountsPast ∨ l.DoublesPast) ∧ l.next = (none, l) ∨
      ¬ (l.CountsPast ∨ l.DoublesPast) ∧ l.next.1 = some l.v := by
  unfold CountsPast DoublesPast next
  grind

theorem next_eq_none_iff : l.next.1 = none ↔ l.CountsPast ∨ l.DoublesPast := by
  rcases next_cases l with ⟨past, same⟩ | ⟨fits, answer⟩
  · exact iff_of_true (congrArg Prod.fst same) past
  · exact iff_of_false (by simp [answer]) fits

def advance (l : Luby) (n : Nat) : Luby := (fun l => l.next.2)^[n] l

theorem advance_succ (l : Luby) (n : Nat) : l.advance (n + 1) = (l.advance n).next.2 :=
  Function.iterate_succ_apply' ..

theorem advance_add (l : Luby) (m n : Nat) : l.advance (m + n) = (l.advance n).advance m :=
  Function.iterate_add_apply ..

theorem advance_of_none (none : l.next.1 = none) (n : Nat) : l.advance n = l := by
  refine Function.iterate_fixed ?_ n
  rcases next_cases l with ⟨-, same⟩ | ⟨-, answer⟩
  · exact congrArg Prod.snd same
  · rw [answer] at none
    cases none

structure Shows (l : Luby) (d : Doubling) : Prop where
  counter : l.u.toNat = d.counter
  power : l.v.toNat = d.power
  power_eq : ∃ k, d.power = 2 ^ k
  dvd : d.power ∣ d.counter
  pos : 0 < d.counter

namespace Shows

theorem counts_iff (h : l.Shows d) : l.u &&& (0 - l.u) = l.v ↔ ¬ 2 * d.power ∣ d.counter := by
  obtain ⟨k, power⟩ := h.power_eq
  rw [← h.counter, power]
  refine lowestBit_eq_iff (h.power.trans power) ?_
  rw [h.counter, ← power]
  exact h.dvd

theorem not_doublesPast (h : l.Shows d) : ¬ l.DoublesPast := by
  rintro ⟨doubles, past⟩
  have dvd : 2 * d.power ∣ d.counter := not_not.1 fun count => doubles (h.counts_iff.2 count)
  have le := Nat.le_of_dvd h.pos dvd
  have lt := l.u.toNat_lt
  rw [h.power] at past
  rw [h.counter] at lt
  change 2 ^ 32 ≤ _ at past
  omega

theorem next (h : l.Shows d) (fits : d.step.counter < UInt32.size) :
    l.next.1 = some l.v ∧ l.next.2.Shows d.step := by
  have counts := h.counts_iff
  rw [Luby.next]
  by_cases dvd : 2 * d.power ∣ d.counter
  · have doubles : ¬ l.u &&& (0 - l.u) = l.v := fun same => counts.1 same dvd
    have small : 2 * l.v.toNat < UInt32.size := Nat.not_le.1 fun past => h.not_doublesPast ⟨doubles, past⟩
    obtain ⟨k, power⟩ := h.power_eq
    rw [if_neg doubles, if_pos small, d.step_of_dvd dvd]
    refine ⟨rfl, h.counter, ?_, ⟨k + 1, ?_⟩, dvd, h.pos⟩
    · rw [← h.power]
      exact (UInt32.toNat_mul 2 l.v).trans (Nat.mod_eq_of_lt small)
    · rw [power, Nat.pow_succ']
  · rw [d.step_of_not_dvd dvd] at fits ⊢
    have small : l.u.toNat + 1 < UInt32.size := h.counter ▸ fits
    rw [if_pos (counts.2 dvd), if_pos small]
    refine ⟨rfl, ?_, rfl, ⟨0, rfl⟩, Nat.one_dvd _, Nat.succ_pos _⟩
    rw [← h.counter]
    exact (UInt32.toNat_add l.u 1).trans (Nat.mod_eq_of_lt small)

end Shows

def lastCall : Nat := 2 ^ 33 - 34

theorem counter_before_lastCall (last : n + 1 = lastCall) :
    ¬ 2 * (step^[n] ⟨1, 1⟩).power ∣ (step^[n] ⟨1, 1⟩).counter ∧ (step^[n] ⟨1, 1⟩).counter = 2 ^ 32 - 1 := by
  refine Doubling.counts_of_step ((Doubling.step_iterate_before (a := 0) (k := 32) (Nat.dvd_zero _) ?_).trans rfl)
  have : lastCall + 34 = 2 ^ 33 := rfl
  omega

theorem shows_advance (before : n < lastCall) : (({} : Luby).advance n).Shows (step^[n] ⟨1, 1⟩) := by
  induction n with
  | zero => exact ⟨rfl, rfl, ⟨0, rfl⟩, Nat.one_dvd _, Nat.one_pos⟩
  | succ n ih =>
    have fits : (step^[n + 1] ⟨1, 1⟩).counter < UInt32.size := by
      obtain ⟨m, last⟩ : ∃ m, m + 1 = lastCall := ⟨_, rfl⟩
      have le := Doubling.counter_iterate_mono ⟨1, 1⟩ (m := n + 1) (n := m) (by omega)
      rw [(counter_before_lastCall last).2] at le
      exact Nat.lt_of_le_of_lt le (by decide)
    rw [Function.iterate_succ_apply'] at fits ⊢
    rw [advance_succ]
    exact ((ih (Nat.lt_of_succ_lt before)).next fits).2

theorem countsPast_of_lastCall (last : n + 1 = lastCall) : (({} : Luby).advance n).CountsPast := by
  have shows := shows_advance (n := n) (by omega)
  obtain ⟨count, bound⟩ := counter_before_lastCall last
  refine ⟨shows.counts_iff.2 count, ?_⟩
  rw [shows.counter, bound]
  decide

theorem advance_of_past {m : Nat} (last : m + 1 = lastCall) (past : m ≤ n) :
    ({} : Luby).advance n = ({} : Luby).advance m := by
  rw [← Nat.sub_add_cancel past, advance_add]
  exact advance_of_none (next_eq_none_iff.2 (.inl (countsPast_of_lastCall last))) _

theorem answer_of_before (before : n + 1 < lastCall) :
    (({} : Luby).advance n).next.1.map UInt32.toNat = some (lubyElement (n + 1)) := by
  have fits : (step^[n + 1] ⟨1, 1⟩).counter < UInt32.size :=
    (shows_advance before).counter ▸ UInt32.toNat_lt_size _
  have shows := shows_advance (Nat.lt_of_succ_lt before)
  rw [Function.iterate_succ_apply'] at fits
  have small : lastCall < 2 ^ (33 + 1) := by decide
  rw [(shows.next fits).1, Option.map_some, shows.power]
  exact congrArg some (Doubling.power_iterate (a := 0) (Nat.dvd_zero _) (Nat.lt_trans before small))

theorem not_doublesPast (n : Nat) : ¬ (({} : Luby).advance n).DoublesPast := by
  obtain ⟨m, last⟩ : ∃ m, m + 1 = lastCall := ⟨_, rfl⟩
  rcases Nat.lt_or_ge n lastCall with before | past
  · exact (shows_advance before).not_doublesPast
  · rw [advance_of_past last (by omega)]
    exact (shows_advance (by omega)).not_doublesPast

theorem countsPast_iff (n : Nat) : (({} : Luby).advance n).CountsPast ↔ lastCall ≤ n + 1 := by
  obtain ⟨m, last⟩ : ∃ m, m + 1 = lastCall := ⟨_, rfl⟩
  constructor
  · intro past
    by_contra before
    have answer := answer_of_before (Nat.not_le.1 before)
    rw [next_eq_none_iff.2 (.inl past)] at answer
    cases answer
  · intro past
    rw [advance_of_past last (by omega)]
    exact countsPast_of_lastCall last

theorem answer_eq (n : Nat) : (({} : Luby).advance n).next.1.map UInt32.toNat =
    if n + 1 < lastCall then some (lubyElement (n + 1)) else none := by
  split
  · next before => exact answer_of_before before
  · next past => rw [next_eq_none_iff.2 (.inl ((countsPast_iff n).2 (Nat.not_lt.1 past))), Option.map_none]

end Luby

end Defeasible
