import Defeasible.Proofs.Search.Incremental
import Defeasible.Search.Optimizer

/-! What soft clauses cost, and what their relaxation atoms stand for: any valuation of the other atoms can
be continued to the relaxation atoms, each true just where its clause is falsified. -/

namespace Defeasible.Search

instance (v : Valuation) (clause : List Lit) : Decidable (Satisfies v clause) :=
  inferInstanceAs (Decidable (∃ l ∈ clause, v l.atom = l.polarity))

instance (v : Valuation) (clauses : List (List Lit)) : Decidable (Models v clauses) :=
  inferInstanceAs (Decidable (∀ c ∈ clauses, Satisfies v c))

def penalty (v : Valuation) : List (List Lit × Nat) → Nat
  | [] => 0
  | (clause, weight) :: soft => (if Satisfies v clause then 0 else weight) + penalty v soft

theorem penalty_append (v : Valuation) (soft more : List (List Lit × Nat)) :
    penalty v (soft ++ more) = penalty v soft + penalty v more := by
  induction soft with
  | nil => simp [penalty]
  | cons c soft ih => simp only [List.cons_append, penalty, ih, Nat.add_assoc]

theorem penalty_perm (v : Valuation) {soft more : List (List Lit × Nat)} (perm : soft.Perm more) :
    penalty v soft = penalty v more := by
  induction perm with
  | nil => rfl
  | cons c _ ih => simp only [penalty, ih]
  | swap c d _ => simp only [penalty]; omega
  | trans _ _ ih ih' => exact ih.trans ih'

section Agree

variable {n : Nat} {v w : Valuation} (agree : ∀ atom ≤ n, v atom = w atom)

include agree

theorem satisfies_congr {clause : List Lit} (bounded : Over n clause) :
    Satisfies v clause ↔ Satisfies w clause := by
  refine exists_congr fun l => and_congr_right fun hl => ?_
  rw [Lit.Holds, Lit.Holds, agree l.atom (bounded l hl).2]

theorem models_congr {clauses : List (List Lit)} (bounded : ∀ c ∈ clauses, Over n c) :
    Models v clauses ↔ Models w clauses :=
  forall_congr' fun c => forall_congr' fun hc => satisfies_congr agree (bounded c hc)

theorem penalty_congr {soft : List (List Lit × Nat)} (bounded : ∀ c ∈ soft, Over n c.1) :
    penalty v soft = penalty w soft := by
  induction soft with
  | nil => rfl
  | cons c soft ih =>
    have same := satisfies_congr agree (bounded c List.mem_cons_self)
    simp only [penalty, same, ih fun d hd => bounded d (List.mem_cons_of_mem c hd)]

end Agree

namespace SoftClause

def weighed (s : SoftClause) : List Lit × Nat := (s.literals, s.weight)

def relaxed (s : SoftClause) : List Lit := s.literals ++ [⟨s.relaxation, true⟩]

def firm (s : SoftClause) : Lit := ⟨s.relaxation, false⟩

theorem satisfies_of_firm {s : SoftClause} {v : Valuation} (relaxed : Satisfies v s.relaxed)
    (firm : s.firm.Holds v) : Satisfies v s.literals := by
  obtain ⟨l, hl, holds⟩ := relaxed
  rcases List.mem_append.1 hl with hl | hl
  · exact ⟨l, hl, holds⟩
  · obtain rfl := List.mem_singleton.1 hl
    exact absurd (holds.symm.trans firm) nofun

end SoftClause

section Weight

variable {v : Valuation} {soft : List SoftClause}

def totalWeight (soft : List SoftClause) : Nat := soft.foldr (fun s total => s.weight + total) 0

theorem totalWeight_concat (soft : List SoftClause) (s : SoftClause) :
    totalWeight (soft ++ [s]) = totalWeight soft + s.weight := by
  induction soft with
  | nil => simp [totalWeight]
  | cons t soft ih =>
    change t.weight + totalWeight (soft ++ [s]) = t.weight + totalWeight soft + s.weight
    rw [ih, Nat.add_assoc]

theorem penalty_eq_zero (satisfied : ∀ s ∈ soft, Satisfies v s.literals) :
    penalty v (soft.map SoftClause.weighed) = 0 := by
  induction soft with
  | nil => rfl
  | cons s soft ih =>
    rw [List.map_cons, SoftClause.weighed, penalty, if_pos (satisfied s List.mem_cons_self),
      ih fun t ht => satisfied t (List.mem_cons_of_mem s ht)]

theorem penalty_eq_totalWeight (falsified : ∀ s ∈ soft, ¬ Satisfies v s.literals) :
    penalty v (soft.map SoftClause.weighed) = totalWeight soft := by
  induction soft with
  | nil => rfl
  | cons s soft ih =>
    rw [List.map_cons, SoftClause.weighed, penalty, if_neg (falsified s List.mem_cons_self),
      ih fun t ht => falsified t (List.mem_cons_of_mem s ht)]
    rfl

theorem penalty_le_totalWeight (v : Valuation) (soft : List SoftClause) :
    penalty v (soft.map SoftClause.weighed) ≤ totalWeight soft := by
  induction soft with
  | nil => exact Nat.le_refl 0
  | cons s soft ih =>
    refine Nat.add_le_add ?_ ih
    split
    · exact Nat.zero_le _
    · exact Nat.le_refl _

end Weight

/-- Hard and soft clauses over the atoms up to `n`, and for each soft clause an atom of its own between `n`
and `m`. -/
structure Relaxed (n m : Nat) (hard : List (List Lit)) (soft : List SoftClause) : Prop where
  le : n ≤ m
  hard_over : ∀ c ∈ hard, Over n c
  soft_over : ∀ s ∈ soft, Over n s.literals
  relaxation_gt : ∀ s ∈ soft, n < s.relaxation
  relaxation_le : ∀ s ∈ soft, s.relaxation ≤ m
  relaxation_inj : ∀ s ∈ soft, ∀ t ∈ soft, s.relaxation = t.relaxation → s = t

def problem (hard : List (List Lit)) (soft : List SoftClause) : List (List Lit) :=
  hard ++ soft.map SoftClause.relaxed

def relax (n : Nat) (soft : List SoftClause) (v : Valuation) : Valuation := fun atom =>
  if atom ≤ n then v atom else soft.any fun s => s.relaxation = atom ∧ ¬ Satisfies v s.literals

theorem relax_agree (n : Nat) (soft : List SoftClause) (v : Valuation) :
    ∀ atom ≤ n, v atom = relax n soft v atom :=
  fun _ le => (if_pos le).symm

namespace Relaxed

variable {n m : Nat} {hard : List (List Lit)} {soft : List SoftClause} {v : Valuation}

theorem relax_relaxation (rel : Relaxed n m hard soft) {s : SoftClause} (mem : s ∈ soft) :
    relax n soft v s.relaxation = true ↔ ¬ Satisfies v s.literals := by
  have gt := rel.relaxation_gt s mem
  rw [relax, if_neg (Nat.not_le.2 gt), List.any_eq_true]
  simp only [decide_eq_true_eq]
  constructor
  · rintro ⟨t, ht, same, falsified⟩
    obtain rfl := rel.relaxation_inj t ht s mem same
    exact falsified
  · exact fun falsified => ⟨s, mem, rfl, falsified⟩

theorem models_relax (rel : Relaxed n m hard soft) (models : Models v hard) :
    Models (relax n soft v) (problem hard soft) := by
  intro c hc
  rcases List.mem_append.1 hc with hc | hc
  · exact (satisfies_congr (relax_agree n soft v) (rel.hard_over c hc)).1 (models c hc)
  · obtain ⟨s, hs, rfl⟩ := List.mem_map.1 hc
    by_cases satisfied : Satisfies v s.literals
    · have := (satisfies_congr (relax_agree n soft v) (rel.soft_over s hs)).1 satisfied
      exact this.of_subset (List.subset_append_left _ _)
    · exact ⟨⟨s.relaxation, true⟩, List.mem_append_right _ (List.mem_singleton_self _),
        (rel.relax_relaxation hs).2 satisfied⟩

theorem firm_relax (rel : Relaxed n m hard soft) {s : SoftClause} (mem : s ∈ soft)
    (satisfied : Satisfies v s.literals) : s.firm.Holds (relax n soft v) := by
  have := mt (rel.relax_relaxation mem).1 (not_not_intro satisfied)
  exact Bool.eq_false_iff.2 this

theorem over_firm (rel : Relaxed n m hard soft) {kept : List SoftClause} (sub : kept ⊆ soft) :
    Over m (kept.map SoftClause.firm) := by
  intro l hl
  obtain ⟨s, hs, rfl⟩ := List.mem_map.1 hl
  have gt := rel.relaxation_gt s (sub hs)
  exact ⟨Nat.zero_lt_of_lt gt, rel.relaxation_le s (sub hs)⟩

end Relaxed

end Defeasible.Search
