import Defeasible.Proofs.Theory.Query

/-! Theories that are as good as each other: with the same degrees, and the same models of each cut, they have
the same preferred levels and imply the same. -/

namespace Defeasible.Theory

variable {t u : Theory} {evidence : Evidence} {n : Necessity} {w : World} {c : Clause}

theorem modelAt_congr {m : Necessity} (same : (∀ c ∈ t.cut n, c.Holds w) ↔ ∀ c ∈ u.cut m, c.Holds w) :
    t.ModelAt n evidence w ↔ u.ModelAt m evidence w :=
  ⟨fun model => ⟨same.1 model.cut, model.evidence⟩, fun model => ⟨same.2 model.cut, model.evidence⟩⟩

structure Equivalent (t u : Theory) : Prop where
  degrees : t.degrees = u.degrees
  models : ∀ n w, (∀ c ∈ t.cut n, c.Holds w) ↔ ∀ c ∈ u.cut n, c.Holds w

theorem equivalent_settle (t : Theory) : t.settle.Equivalent t := ⟨rfl, fun _ _ => Iff.rfl⟩

theorem equivalent_withSettings (t : Theory) (settings : Settings) : (t.withSettings settings).Equivalent t :=
  ⟨rfl, fun _ _ => Iff.rfl⟩

namespace Equivalent

variable (equivalent : t.Equivalent u)

include equivalent

theorem symm : u.Equivalent t := ⟨equivalent.degrees.symm, fun n w => (equivalent.models n w).symm⟩

theorem modelAt_iff : t.ModelAt n evidence w ↔ u.ModelAt n evidence w := modelAt_congr (equivalent.models n w)

theorem consistentAt_iff : t.ConsistentAt n evidence ↔ u.ConsistentAt n evidence :=
  exists_congr fun _ => equivalent.modelAt_iff

theorem preferred (preferred : t.Preferred evidence n) : u.Preferred evidence n := by
  refine ⟨equivalent.degrees ▸ preferred.mem, equivalent.consistentAt_iff.1 preferred.consistent, ?_⟩
  rw [← equivalent.degrees]
  exact fun m hm lt consistent => preferred.lowest m hm lt (equivalent.consistentAt_iff.2 consistent)

theorem preferred_iff : t.Preferred evidence n ↔ u.Preferred evidence n :=
  ⟨equivalent.preferred, equivalent.symm.preferred⟩

theorem entails_iff : t.Entails evidence c ↔ u.Entails evidence c :=
  or_congr_right (exists_congr fun _ => and_congr equivalent.preferred_iff
    (forall_congr' fun _ => imp_congr_left equivalent.modelAt_iff))

theorem prefers {answer : Option (Witness × Necessity)} (prefers : t.Prefers evidence answer) :
    u.Prefers evidence answer := by
  cases answer with
  | none => exact fun n hn possible => prefers n (equivalent.degrees ▸ hn) (equivalent.consistentAt_iff.2 possible)
  | some found => exact ⟨equivalent.preferred prefers.1, equivalent.modelAt_iff.1 prefers.2⟩

end Equivalent

end Defeasible.Theory
