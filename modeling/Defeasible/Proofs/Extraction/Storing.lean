import Defeasible.Proofs.Extraction.Bound
import Defeasible.Proofs.Theory.Consequence

/-! Which antecedents are stored. Each antecedent that extends a bound ends up between the two sets of some
bound, where it has the consequences of the lower set. -/

namespace Defeasible.Theory

variable {t : Theory} {E : Error → Prop} {vocabulary set : LiteralSet} {bounds bounds' bounds'' : BoundTable}
  {b : Bound} {c : LiteralSet} {cs ds : List LiteralSet}

structure Describes (t : Theory) (vocabulary : LiteralSet) (b : Bound) : Prop where
  within : ∀ l ∈ b.lower, l ∈ vocabulary ∨ l.negate ∈ vocabulary
  upper_iff : ∀ l, l ∈ b.upper ↔ t.Implied b.lower vocabulary.toList l ∨ l ∈ b.lower

namespace Describes

theorem between (describes : t.Describes vocabulary b) (contains : b.contains set = true) :
    t.Between b.lower set := by
  obtain ⟨lower, upper⟩ := Bound.contains_iff.1 contains
  refine ⟨lower, fun l hl => ?_⟩
  exact ((describes.upper_iff l).1 (upper l hl)).symm.imp_right Implied.entails

theorem mem_implied (describes : t.Describes vocabulary b) {l : Literal} :
    l ∈ b.implied ↔ t.Implied b.lower vocabulary.toList l := by
  rw [Bound.mem_implied, describes.upper_iff]
  constructor
  · exact fun h => h.1.resolve_right h.2
  · exact fun implied => ⟨.inl implied, implied.not_mem⟩

end Describes

theorem mem_candidates :
    c ∈ candidates b vocabulary ↔ ∃ l, (l ∈ vocabulary ∨ l.negate ∈ vocabulary) ∧ ¬ l ∈ b.upper ∧
      ¬ l.negate ∈ b.lower ∧ b.lower.insert l = c := by
  have literals (l : Literal) : l ∈ vocabulary.toList.flatMap (fun atom => [atom, atom.negate]) ↔
      l ∈ vocabulary ∨ l.negate ∈ vocabulary := by
    simp only [List.mem_flatMap, List.mem_cons, List.not_mem_nil, or_false, OrdSet.mem_toList]
    constructor
    · rintro ⟨atom, mem, rfl | rfl⟩
      · exact .inl mem
      · exact .inr (by rwa [Literal.negate_negate])
    · rintro (mem | mem)
      · exact ⟨l, mem, .inl rfl⟩
      · exact ⟨l.negate, mem, .inr (Literal.negate_negate l).symm⟩
  have new (l : Literal) : (!b.upper.has l && !b.lower.has l.negate) = true ↔
      ¬ l ∈ b.upper ∧ ¬ l.negate ∈ b.lower := by
    rw [Bool.and_eq_true, Bool.not_eq_true', Bool.not_eq_true', ← Bool.not_eq_true, ← Bool.not_eq_true,
      OrdSet.has_eq_true, OrdSet.has_eq_true]
  rw [candidates, OrdSet.mem_ofList, List.mem_filterMap]
  refine exists_congr fun l => ?_
  rw [literals, ← and_assoc (a := ¬ l ∈ b.upper), ← new]
  refine and_congr_right fun _ => ?_
  split
  · next holds => rw [and_iff_right holds, Option.some_inj]
  · next fails => exact iff_of_false (Option.some_ne_none _).symm fun h => fails h.1

structure Stores (t : Theory) (vocabulary : LiteralSet) (cs : List LiteralSet) (bounds bounds' : BoundTable) :
    Prop where
  indexed : bounds'.Indexed
  kept : ∀ b ∈ bounds.toList, b ∈ bounds'.toList
  stored : ∀ b ∈ bounds'.toList, b ∈ bounds.toList ∨ b.lower ∈ cs ∧ t.Describes vocabulary b
  covered : ∀ c ∈ cs, bounds'.Covers c

namespace Stores

theorem refl (indexed : bounds.Indexed) : t.Stores vocabulary [] bounds bounds :=
  ⟨indexed, fun _ => id, fun _ => .inl, nofun⟩

theorem trans (stores : t.Stores vocabulary cs bounds bounds')
    (stores' : t.Stores vocabulary ds bounds' bounds'') :
    t.Stores vocabulary (cs ++ ds) bounds bounds'' := by
  refine ⟨stores'.indexed, fun b hb => stores'.kept b (stores.kept b hb), fun b hb => ?_, fun c hc => ?_⟩
  · rcases stores'.stored b hb with hb | ⟨mem, describes⟩
    · exact (stores.stored b hb).imp_right fun h => ⟨List.mem_append_left _ h.1, h.2⟩
    · exact .inr ⟨List.mem_append_right _ mem, describes⟩
  · rcases List.mem_append.1 hc with hc | hc
    · exact (stores.covered c hc).mono stores'.kept
    · exact stores'.covered c hc

theorem skip (indexed : bounds.Indexed) (covers : bounds.Covers c) :
    t.Stores vocabulary [c] bounds bounds :=
  ⟨indexed, fun _ => id, fun _ => .inl, fun _ hd => List.mem_singleton.1 hd ▸ covers⟩

theorem store (indexed : bounds.Indexed) (some : ∃ l, l ∈ c) {upper : LiteralSet}
    (describes : t.Describes vocabulary ⟨c, upper⟩) :
    t.Stores vocabulary [c] bounds (bounds.store c upper) := by
  refine ⟨indexed.store c upper, fun b hb => ?_, fun b hb => ?_, fun d hd => ?_⟩
  · rw [BoundTable.toList_store]
    exact List.mem_append_left _ hb
  · rw [BoundTable.toList_store] at hb
    refine (List.mem_append.1 hb).imp_right fun hb => ?_
    obtain rfl := List.mem_singleton.1 hb
    exact ⟨List.mem_singleton_self c, describes⟩
  · obtain rfl := List.mem_singleton.1 hd
    refine ⟨⟨d, upper⟩, ?_, some, ?_⟩
    · rw [BoundTable.toList_store]
      exact List.mem_append_right _ (List.mem_singleton_self _)
    · exact Bound.contains_iff.2 ⟨fun _ => id, fun l hl => (describes.upper_iff l).2 (.inr hl)⟩

end Stores

theorem asked_of_within {asked : Literal → Prop} (negate : ∀ l, asked l → asked l.negate)
    (asked_vocabulary : ∀ l ∈ vocabulary, asked l) {l : Literal}
    (within : l ∈ vocabulary ∨ l.negate ∈ vocabulary) : asked l := by
  rcases within with mem | mem
  · exact asked_vocabulary l mem
  · exact Literal.negate_negate l ▸ negate _ (asked_vocabulary _ mem)

namespace Askable

variable {asked : Literal → Prop} (askable : t.Askable asked E)

include askable

theorem storeEach_meets (asked_vocabulary : ∀ l ∈ vocabulary, asked l) (indexed : bounds.Indexed)
    (antecedents : ∀ c ∈ cs, (∃ l, l ∈ c) ∧ ∀ l ∈ c, l ∈ vocabulary ∨ l.negate ∈ vocabulary) :
    (t.storeEach vocabulary cs bounds).Meets (t.Stores vocabulary cs bounds) E := by
  induction cs generalizing bounds with
  | nil => exact .pure (.refl indexed)
  | cons c cs ih =>
    obtain ⟨some, within⟩ := antecedents c List.mem_cons_self
    have rest := fun d hd => antecedents d (List.mem_cons_of_mem c hd)
    have asked_antecedent (l : Literal) (hl : l ∈ c) : asked l :=
      asked_of_within askable.negate asked_vocabulary (within l hl)
    rw [storeEach]
    split
    · next inside =>
      have first : t.Stores vocabulary [c] bounds bounds :=
        .skip indexed ((BoundTable.inside_iff indexed).1 inside)
      exact (ih indexed rest).imp fun _ stores => first.trans stores
    · refine (askable.impliedLiterals_meets asked_antecedent asked_vocabulary).bind fun implied found => ?_
      have describes : t.Describes vocabulary ⟨c, implied ∪ c⟩ :=
        ⟨within, fun l => OrdSet.mem_union.trans (or_congr_left (found l))⟩
      have first := Stores.store indexed some describes
      exact (ih first.indexed rest).imp fun _ stores => first.trans stores

end Askable

def extensions (vocabulary : LiteralSet) (previous : List Bound) : List LiteralSet :=
  previous.flatMap fun b => (candidates b vocabulary).toList

theorem Askable.storeCandidates_meets {asked : Literal → Prop} (askable : t.Askable asked E)
    (asked_vocabulary : ∀ l ∈ vocabulary, asked l) {previous : List Bound} (indexed : bounds.Indexed)
    (within_previous : ∀ b ∈ previous, ∀ l ∈ b.lower, l ∈ vocabulary ∨ l.negate ∈ vocabulary) :
    (t.storeCandidates vocabulary previous bounds).Meets
      (t.Stores vocabulary (extensions vocabulary previous) bounds) E := by
  unfold storeCandidates
  induction previous generalizing bounds with
  | nil => exact .pure (.refl indexed)
  | cons b previous ih =>
    rw [List.foldlM_cons]
    have antecedents : ∀ c ∈ (candidates b vocabulary).toList,
        (∃ l, l ∈ c) ∧ ∀ l ∈ c, l ∈ vocabulary ∨ l.negate ∈ vocabulary := by
      intro c hc
      obtain ⟨l, within, -, -, rfl⟩ := mem_candidates.1 hc
      refine ⟨⟨l, OrdSet.mem_insert.2 (.inl rfl)⟩, fun m hm => ?_⟩
      rcases OrdSet.mem_insert.1 hm with rfl | hm
      · exact within
      · exact within_previous b List.mem_cons_self m hm
    refine (askable.storeEach_meets asked_vocabulary indexed antecedents).bind fun bounds' first => ?_
    refine (ih first.indexed fun d hd => within_previous d (List.mem_cons_of_mem b hd)).imp fun _ stores => ?_
    exact first.trans stores

end Defeasible.Theory
