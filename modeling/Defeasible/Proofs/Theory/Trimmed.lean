import Defeasible.Proofs.Theory.Query
import Defeasible.Proofs.Theory.Strata
import Mathlib.Data.List.Forall2

/-! Theories whose clauses have lost literals. No level is emptied, so the necessities stay, and shorter clauses say no
less. -/

namespace Defeasible

section Lists

variable {α β γ : Type} {R : α → β → Prop} {S : β → γ → Prop} {T : α → γ → Prop} {as : List α} {bs : List β}
  {cs : List γ}

theorem exists_of_mem_left (related : List.Forall₂ R as bs) : ∀ a ∈ as, ∃ b ∈ bs, R a b := by
  induction related with
  | nil => exact nofun
  | cons first _ ih =>
    refine List.forall_mem_cons.2 ⟨⟨_, List.mem_cons_self, first⟩, fun a ha => ?_⟩
    exact (ih a ha).imp fun b h => ⟨List.mem_cons_of_mem _ h.1, h.2⟩

theorem exists_of_mem_right (related : List.Forall₂ R as bs) : ∀ b ∈ bs, ∃ a ∈ as, R a b :=
  exists_of_mem_left related.flip

theorem map_eq_map (related : List.Forall₂ R as bs) {f : α → γ} {g : β → γ} (same : ∀ a b, R a b → f a = g b) :
    as.map f = bs.map g := by
  induction related with
  | nil => rfl
  | cons first _ ih => rw [List.map_cons, List.map_cons, same _ _ first, ih]

theorem forall₂_trans (trans : ∀ a b c, R a b → S b c → T a c) (first : List.Forall₂ R as bs)
    (second : List.Forall₂ S bs cs) : List.Forall₂ T as cs := by
  induction first generalizing cs with
  | nil =>
    cases second
    exact .nil
  | cons related _ ih =>
    cases second with
    | cons related' rest => exact .cons (trans _ _ _ related related') (ih rest)

end Lists

namespace Clause

variable {c d : Clause} {l m : Literal} {w : World}

theorem Holds.of_subset (holds : c.Holds w) (subset : ∀ l ∈ c, l ∈ d) : d.Holds w :=
  holds.imp fun l h => ⟨subset l h.1, h.2⟩

theorem ground_of_subset (ground : d.isGround = true) (subset : ∀ l ∈ c, l ∈ d) : c.isGround = true :=
  List.all_eq_true.2 fun l hl => List.all_eq_true.1 ground l (subset l hl)

theorem mem_without : m ∈ c.without l ↔ m ∈ c ∧ m ≠ l := OrdSet.mem_erase

end Clause

structure Trims (cs ds : ClauseSet) : Prop where
  whole : ∀ c ∈ cs, ∃ d ∈ ds, ∀ l ∈ c, l ∈ d
  rest : ∀ d ∈ ds, ∃ c ∈ cs, ∀ l ∈ c, l ∈ d

namespace Trims

variable {cs ds es : ClauseSet} {w : World}

theorem refl (cs : ClauseSet) : Trims cs cs := ⟨fun c hc => ⟨c, hc, fun _ => id⟩, fun c hc => ⟨c, hc, fun _ => id⟩⟩

theorem trans (trims : Trims cs ds) (trims' : Trims ds es) : Trims cs es := by
  constructor
  · intro c hc
    obtain ⟨d, hd, subset⟩ := trims.whole c hc
    exact (trims'.whole d hd).imp fun e h => ⟨h.1, fun l hl => h.2 l (subset l hl)⟩
  · intro e he
    obtain ⟨d, hd, subset⟩ := trims'.rest e he
    exact (trims.rest d hd).imp fun c h => ⟨h.1, fun l hl => subset l (h.2 l hl)⟩

theorem models (trims : Trims cs ds) (models : ∀ c ∈ cs, c.Holds w) : ∀ d ∈ ds, d.Holds w := by
  intro d hd
  obtain ⟨c, hc, subset⟩ := trims.rest d hd
  exact (models c hc).of_subset subset

theorem ground (trims : Trims cs ds) (ground : ∀ d ∈ ds, d.isGround = true) : ∀ c ∈ cs, c.isGround = true := by
  intro c hc
  obtain ⟨d, hd, subset⟩ := trims.whole c hc
  exact Clause.ground_of_subset (ground d hd) subset

theorem isEmpty_eq_false (trims : Trims cs ds) (some : ds.isEmpty = false) : cs.isEmpty = false := by
  rw [← Bool.not_eq_true, OrdSet.isEmpty_iff] at some ⊢
  refine fun none => some fun d hd => ?_
  obtain ⟨c, hc, -⟩ := trims.rest d hd
  exact none c hc

end Trims

structure Trimmed (k l : Level) : Prop where
  necessity : k.necessity = l.necessity
  clauses : Trims k.clauses l.clauses

namespace Theory

variable {t : Theory} {levels : List Level} {n : Necessity} {w : World} (trimmed : List.Forall₂ Trimmed levels t.levels)
  (regular : t.Regular) (populated : t.Populated)

include trimmed

theorem necessities_of_trimmed : levels.map (·.necessity) = t.weights :=
  map_eq_map trimmed fun _ _ trimmed => trimmed.necessity

include regular populated

theorem levels_of_trimmed : (t.withLevels levels).levels = levels := by
  have ascending : (levels.map (·.necessity)).Pairwise (· < ·) := by
    rw [necessities_of_trimmed trimmed]
    exact List.pairwise_map.2 regular.ascending
  refine levels_ofLevels (List.pairwise_map.1 ascending) fun k hk => ?_
  obtain ⟨l, hl, trimmed⟩ := exists_of_mem_left trimmed k hk
  exact trimmed.clauses.isEmpty_eq_false (populated l hl)

theorem weights_of_trimmed : (t.withLevels levels).weights = t.weights := by
  rw [weights, levels_of_trimmed trimmed regular populated, necessities_of_trimmed trimmed]

theorem degrees_of_trimmed : (t.withLevels levels).degrees = t.degrees := by
  rw [degrees, degrees, weights_of_trimmed trimmed regular populated]

theorem models_of_trimmed (models : ∀ c ∈ (t.withLevels levels).cut n, c.Holds w) : ∀ c ∈ t.cut n, c.Holds w := by
  intro c hc
  rcases mem_cut.1 hc with ⟨l, hl, le, hc⟩ | hc
  · obtain ⟨k, hk, trimmed'⟩ := exists_of_mem_right trimmed l hl
    have shorter (d : Clause) (hd : d ∈ k.clauses) : d.Holds w := by
      rw [← levels_of_trimmed trimmed regular populated] at hk
      exact models d (mem_cut.2 (.inl ⟨k, hk, trimmed'.necessity ▸ le, hd⟩))
    exact trimmed'.clauses.models shorter c hc
  · exact models c (mem_cut.2 (.inr hc))

theorem ground_of_trimmed (ground : ∀ c ∈ t.clauses, c.isGround = true) :
    ∀ c ∈ (t.withLevels levels).clauses, c.isGround = true := by
  intro c hc
  rw [mem_clauses, levels_of_trimmed trimmed regular populated] at hc
  rcases hc with ⟨k, hk, hc⟩ | hc
  · obtain ⟨l, hl, trimmed⟩ := exists_of_mem_left trimmed k hk
    exact trimmed.clauses.ground (fun d hd => ground d (mem_clauses.2 (.inl ⟨l, hl, hd⟩))) c hc
  · exact ground c (mem_clauses.2 (.inr hc))

end Theory

end Defeasible
