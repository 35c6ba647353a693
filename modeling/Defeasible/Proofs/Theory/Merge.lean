import Defeasible.Proofs.Theory.Strata

/-! Stacked theories. A theory made from strata has those that are not empty, in their order, and stacking
two theories puts the strata of one above those of the other. How a stack is bracketed makes no difference:
the necessities are given anew each time, and depend on the strata only. -/

namespace Defeasible.Theory

variable {a b c : Theory} {strata : List ClauseSet}

theorem isEmpty_of_mem_strata (populated : a.Populated) : ∀ s ∈ a.strata, s.isEmpty = false :=
  List.forall_mem_map.2 populated

theorem strata_ofStrata (spread : Necessity.Spread strata.length) :
    (ofStrata strata).strata = strata.filter fun s => !s.isEmpty := by
  have levels : (ofStrata strata).levels = dropEmpty _ := levels_ofLevels_eq (ascending_zipIdx spread)
  calc (ofStrata strata).strata
      = (dropEmpty (strata.zipIdx.map fun p => ⟨.ofLevel p.2 strata.length, p.1⟩)).map (·.clauses) := by
        rw [Theory.strata, levels]
    _ = (strata.zipIdx.map Prod.fst).filter fun s => !s.isEmpty := by
        rw [dropEmpty, List.filter_map, List.map_map, List.filter_map]
        rfl
    _ = strata.filter fun s => !s.isEmpty := by rw [List.zipIdx_map_fst]

theorem strata_merge (ha : a.Populated) (hb : b.Populated)
    (spread : Necessity.Spread (a.levels.length + b.levels.length)) :
    (merge a b).strata = a.strata ++ b.strata := by
  have length : (a.strata ++ b.strata).length = a.levels.length + b.levels.length := by
    rw [List.length_append, length_strata, length_strata]
  have stacked : (merge a b).strata = (ofStrata (a.strata ++ b.strata)).strata := rfl
  rw [stacked, strata_ofStrata (length ▸ spread), List.filter_eq_self]
  intro s hs
  rw [(List.mem_append.1 hs).elim (isEmpty_of_mem_strata ha s) (isEmpty_of_mem_strata hb s)]
  rfl

theorem hardRules_merge (a b : Theory) : (merge a b).hardRules = a.hardRules ∪ b.hardRules := by
  have added : (merge a b).hardRules =
      (ofStrata (a.strata ++ b.strata)).hardRules ∪ (a.hardRules ∪ b.hardRules) := rfl
  rw [added, ofStrata, hardRules_ofLevels]
  exact OrdSet.ext fun c => by simp only [OrdSet.mem_union, OrdSet.not_mem_empty, false_or]

theorem merge_congr {a' b' : Theory} (strata : a.strata ++ b.strata = a'.strata ++ b'.strata)
    (hardRules : a.hardRules ∪ b.hardRules = a'.hardRules ∪ b'.hardRules) : merge a b = merge a' b' := by
  rw [merge, strata, hardRules, ← merge]

theorem merge_assoc (ha : a.Populated) (hb : b.Populated) (hc : c.Populated)
    (lower : Necessity.Spread (a.levels.length + b.levels.length))
    (upper : Necessity.Spread (b.levels.length + c.levels.length)) :
    merge (merge a b) c = merge a (merge b c) := by
  refine merge_congr ?_ ?_
  · rw [strata_merge ha hb lower, strata_merge hb hc upper, List.append_assoc]
  · rw [hardRules_merge, hardRules_merge]
    exact OrdSet.ext fun c => by simp only [OrdSet.mem_union, or_assoc]

/-- Strata come back from the theory they make, but for the empty ones. A stack has the strata of the lower
theory and then those of the upper one, and the hard rules of both, and stacks are the same theory however
they are bracketed. -/
theorem merge_concatenates :
    (∀ strata : List ClauseSet, Necessity.Spread strata.length →
      (ofStrata strata).strata = strata.filter fun s => !s.isEmpty) ∧
    (∀ a b : Theory, a.Populated → b.Populated → Necessity.Spread (a.levels.length + b.levels.length) →
      (merge a b).strata = a.strata ++ b.strata ∧ (merge a b).hardRules = a.hardRules ∪ b.hardRules) ∧
    ∀ a b c : Theory, a.Populated → b.Populated → c.Populated →
      Necessity.Spread (a.levels.length + b.levels.length) →
      Necessity.Spread (b.levels.length + c.levels.length) →
      merge (merge a b) c = merge a (merge b c) :=
  ⟨fun _ => strata_ofStrata, fun a b ha hb spread => ⟨strata_merge ha hb spread, hardRules_merge a b⟩,
    fun _ _ _ => merge_assoc⟩

def overlapping : List ClauseSet :=
  [.singleton (.unit ⟨"a", [], true⟩), ∅,
    .ofList [.unit ⟨"a", [], true⟩, .unit ⟨"b", [], true⟩], .singleton (.unit ⟨"c", [], false⟩)]

theorem merge_concatenates_overlapping :
    (ofStrata overlapping).strata = [overlapping[0], overlapping[2], overlapping[3]] ∧
    (merge (ofStrata overlapping) ((ofStrata overlapping).addHardRule (.unit ⟨"d", [], true⟩))).strata =
      (ofStrata overlapping).strata ++ (ofStrata overlapping).strata ∧
    merge (merge (ofStrata overlapping) (ofStrata overlapping)) (ofStrata overlapping) =
      merge (ofStrata overlapping) (merge (ofStrata overlapping) (ofStrata overlapping)) := by
  obtain ⟨strata, stacked, assoc⟩ := merge_concatenates
  have populated : (ofStrata overlapping).Populated := populated_ofStrata overlapping
  have spread : Necessity.Spread ((ofStrata overlapping).levels.length + (ofStrata overlapping).levels.length) := by
    decide +kernel
  refine ⟨(strata overlapping (by decide +kernel)).trans (by decide +kernel), ?_, ?_⟩
  · exact (stacked _ ((ofStrata overlapping).addHardRule (.unit ⟨"d", [], true⟩)) populated populated spread).1
  · exact assoc _ _ _ populated populated populated spread spread

end Defeasible.Theory
