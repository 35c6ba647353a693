import Defeasible.Proofs.Theory.Consequence
import Defeasible.Proofs.Theory.HardRules
import Defeasible.Proofs.Theory.Plausible

/-! Theories that have lost levels, but no models of a cut. A level that is preferred with fewer levels stands for one
with the same models that is preferred with all of them. Where the most certain level is lost and all that are left are
drowned nothing is preferred, while the lost level still let the hard rules speak. -/

namespace Defeasible.Theory

variable {t u : Theory} {evidence : Evidence} {n m : Necessity} {w : World} {c : Clause}

theorem cut_congr (same : ∀ k ∈ t.weights, n ≤ k ↔ m ≤ k) : t.cut n = t.cut m := by
  refine OrdSet.ext fun c => ?_
  rw [mem_cut, mem_cut]
  refine or_congr_left (exists_congr fun l => and_congr_right fun hl => and_congr_left fun _ => ?_)
  exact same _ (List.mem_map_of_mem hl)

theorem modelAt_iff_possible (above : ∀ k ∈ t.weights, k < n) : t.ModelAt n evidence w ↔ t.Possible evidence w := by
  refine ⟨ModelAt.possible, fun possible => ⟨fun c hc => ?_, possible.evidence⟩⟩
  rcases mem_cut.1 hc with ⟨l, hl, le, -⟩ | hc
  · exact absurd (above l.necessity (List.mem_map_of_mem hl)) (Necessity.not_lt.2 le)
  · exact possible.hardRules c hc

theorem exists_maxNecessity? (filled : t.levels ≠ []) : ∃ n, t.maxNecessity? = some n := by
  refine Option.ne_none_iff_exists'.1 fun none => filled ?_
  exact List.map_eq_nil_iff.1 (List.getLast?_eq_none_iff.1 none)

theorem entails_iff_of_drowned (drowned : ∀ n, ¬ t.Preferred evidence n) :
    t.Entails evidence c ↔ ∀ w, c.Holds w := by
  refine or_iff_left ?_
  rintro ⟨n, preferred, -⟩
  exact drowned n preferred

/-- Whether a theory is another without some of its levels, as far as models are concerned. -/
structure Thinned (u t : Theory) : Prop where
  hardRules : u.hardRules = t.hardRules
  weights : ∀ n ∈ u.weights, n ∈ t.weights
  models : ∀ n w, (∀ c ∈ u.cut n, c.Holds w) ↔ ∀ c ∈ t.cut n, c.Holds w

/-- Whether all levels are lost, or the most certain one is left, or some level that is left is not drowned. -/
def Serves (u t : Theory) (evidence : Evidence) : Prop :=
  u.levels = [] ∨ u.maxNecessity? = t.maxNecessity? ∨ ∃ n ∈ u.degrees, u.ConsistentAt n evidence

namespace Thinned

variable (thinned : u.Thinned t)

include thinned

theorem modelAt_iff : u.ModelAt n evidence w ↔ t.ModelAt n evidence w := modelAt_congr (thinned.models n w)

theorem consistentAt_iff : u.ConsistentAt n evidence ↔ t.ConsistentAt n evidence :=
  exists_congr fun _ => thinned.modelAt_iff

theorem possible_iff : u.Possible evidence w ↔ t.Possible evidence w := by
  constructor
  · exact fun possible => ⟨thinned.hardRules ▸ possible.hardRules, possible.evidence⟩
  · exact fun possible => ⟨thinned.hardRules ▸ possible.hardRules, possible.evidence⟩

theorem modelAt_iff_of_weights (same : ∀ k ∈ u.weights, n ≤ k ↔ m ≤ k) :
    u.ModelAt n evidence w ↔ t.ModelAt m evidence w :=
  modelAt_congr (by rw [cut_congr same, thinned.models])

theorem modelAt_iff_of_empty (empty : u.levels = []) : u.ModelAt n evidence w ↔ t.ModelAt m evidence w :=
  thinned.modelAt_iff_of_weights fun k hk => by simp [Theory.weights, empty] at hk

theorem exists_consistentAt (ascending : Ascending t.levels) (preferred : u.Preferred evidence n) :
    ∃ m ∈ t.degrees, t.ConsistentAt m evidence := by
  by_cases empty : u.levels = []
  · obtain ⟨top, mem, -⟩ := exists_top ascending evidence
    exact ⟨top, mem, preferred.consistent.imp fun _ => (thinned.modelAt_iff_of_empty empty).1⟩
  · obtain ⟨k, max⟩ := exists_maxNecessity? empty
    have weighted : u.degrees = u.weights := degrees_of_mem_weights (List.mem_of_getLast? max)
    have mem := mem_degrees_of_mem_weights (thinned.weights n (weighted ▸ preferred.mem))
    exact ⟨n, mem, thinned.consistentAt_iff.1 preferred.consistent⟩

theorem preferred (ascending : Ascending t.levels) (preferred : u.Preferred evidence n) :
    ∃ m, t.Preferred evidence m ∧ ∀ w, t.ModelAt m evidence w ↔ u.ModelAt n evidence w := by
  obtain ⟨k, mem, consistent⟩ := thinned.exists_consistentAt ascending preferred
  obtain ⟨m, preferred'⟩ := exists_preferred mem consistent
  refine ⟨m, preferred', fun w => (thinned.modelAt_iff_of_weights fun k hk => ?_).symm⟩
  have weighted := thinned.weights k hk
  -- No level that is left lies between the two, as each is the lowest that is consistent.
  constructor
  · intro le
    refine preferred'.le (mem_degrees_of_mem_weights weighted) ?_
    exact (thinned.consistentAt_iff.1 preferred.consistent).mono le
  · intro le
    refine preferred.le (mem_degrees_of_mem_weights hk) ?_
    exact (thinned.consistentAt_iff.2 preferred'.consistent).mono le

theorem entails_iff_of_preferred (ascending : Ascending t.levels) (preferred : u.Preferred evidence n) :
    u.Entails evidence c ↔ t.Entails evidence c := by
  obtain ⟨m, preferred', models⟩ := thinned.preferred ascending preferred
  rw [preferred.entails_iff, preferred'.entails_iff]
  exact forall_congr' fun w => imp_congr_left (models w).symm

theorem entails (ascending : Ascending t.levels) (entails : u.Entails evidence c) : t.Entails evidence c := by
  rcases entails with always | ⟨n, preferred, holds⟩
  · exact .inl always
  · exact (thinned.entails_iff_of_preferred ascending preferred).1 (.inr ⟨n, preferred, holds⟩)

theorem entails_iff (ascending : Ascending t.levels) (serves : u.Serves t evidence) :
    u.Entails evidence c ↔ t.Entails evidence c := by
  by_cases found : ∃ n ∈ u.degrees, u.ConsistentAt n evidence
  · obtain ⟨n, mem, consistent⟩ := found
    obtain ⟨n, preferred⟩ := exists_preferred mem consistent
    exact thinned.entails_iff_of_preferred ascending preferred
  have inherits : ∃ n ∈ u.degrees, ∀ m ∈ t.degrees, t.ConsistentAt m evidence → u.ConsistentAt n evidence := by
    by_cases empty : u.levels = []
    · rw [degrees_of_empty empty]
      refine ⟨.certain, List.mem_singleton_self _, fun m _ consistent => ?_⟩
      exact consistent.imp fun _ => (thinned.modelAt_iff_of_empty empty).2
    · obtain ⟨n, max⟩ := exists_maxNecessity? empty
      have same := (serves.resolve_left empty).resolve_right found
      obtain ⟨mem, above⟩ := le_of_maxNecessity? ascending (same ▸ max)
      rw [degrees_of_mem_weights mem]
      refine ⟨n, mem_degrees_of_mem_weights (List.mem_of_getLast? max), fun m hm consistent => ?_⟩
      exact thinned.consistentAt_iff.2 (consistent.mono (above m hm))
  obtain ⟨n, mem, inherits⟩ := inherits
  rw [entails_iff_of_drowned fun n preferred => found ⟨n, preferred.mem, preferred.consistent⟩,
    entails_iff_of_drowned fun m preferred => found ⟨n, mem, inherits m preferred.mem preferred.consistent⟩]

theorem exists_lost (ascending : Ascending t.levels) (ascending' : Ascending u.levels)
    (not_serves : ¬ u.Serves t evidence) :
    ∃ n ∈ u.weights, ∃ m ∈ t.weights, n < m ∧ (∀ k ∈ u.weights, k ≤ n) ∧ ¬ u.ConsistentAt n evidence := by
  rw [Serves, not_or, not_or] at not_serves
  obtain ⟨filled, other, drowned⟩ := not_serves
  obtain ⟨n, max⟩ := exists_maxNecessity? filled
  obtain ⟨mem, below⟩ := le_of_maxNecessity? ascending' max
  have weighted := thinned.weights n mem
  obtain ⟨m, max'⟩ := exists_maxNecessity? (mt List.map_eq_nil_iff.2 (List.ne_nil_of_mem weighted))
  obtain ⟨mem', below'⟩ := le_of_maxNecessity? ascending max'
  refine ⟨n, mem, m, mem', ?_, below, fun consistent => drowned ⟨n, mem_degrees_of_mem_weights mem, consistent⟩⟩
  by_contra not_lt
  refine other ?_
  rw [max, max', Necessity.eq_of_not_lt not_lt (Necessity.not_lt.2 (below' n weighted))]

/-- Then what is left implies nothing, while in the whole theory the lost level lets the hard rules speak. -/
theorem entails_iff_of_not_serves (ascending : Ascending t.levels) (ascending' : Ascending u.levels)
    (not_serves : ¬ u.Serves t evidence) :
    (u.Entails evidence c ↔ ∀ w, c.Holds w) ∧ (t.Entails evidence c ↔
      (∀ w, c.Holds w) ∨ (∃ w, t.Possible evidence w) ∧ ∀ w, t.Possible evidence w → c.Holds w) := by
  obtain ⟨n, mem, m, mem', lt, below, drowned⟩ := thinned.exists_lost ascending ascending' not_serves
  have above (k : Necessity) (lt : n < k) (w : World) : t.ModelAt k evidence w ↔ t.Possible evidence w := by
    rw [← thinned.modelAt_iff, ← thinned.possible_iff]
    exact modelAt_iff_possible fun j hj => UInt64.lt_of_le_of_lt (below j hj) lt
  have higher (k : Necessity) (consistent : u.ConsistentAt k evidence) : n < k := by
    by_contra not_lt
    exact drowned (consistent.mono (Necessity.not_lt.1 not_lt))
  refine ⟨entails_iff_of_drowned fun k preferred => not_serves ?_, or_congr_right ⟨?_, ?_⟩⟩
  · exact .inr (.inr ⟨k, preferred.mem, preferred.consistent⟩)
  · rintro ⟨k, preferred, holds⟩
    have models := above k (higher k (thinned.consistentAt_iff.2 preferred.consistent))
    exact ⟨preferred.consistent.imp fun w => (models w).1, fun w possible => holds w ((models w).2 possible)⟩
  · rintro ⟨⟨w, possible⟩, holds⟩
    obtain ⟨k, preferred⟩ := exists_preferred (mem_degrees_of_mem_weights mem') ⟨w, (above m lt w).2 possible⟩
    exact ⟨k, preferred, fun w model => holds w model.possible⟩

end Thinned

end Defeasible.Theory
