import Defeasible.Proofs.Extraction.Redundancy
import Defeasible.Proofs.Extraction.Storing

/-! What extraction has found when the antecedents up to some length are done. Every antecedent that extends
a shorter bound by a literal is between the two sets of some bound, and the defaults are those that the bounds
imply and that are not redundant. These are implied, so they have a closure, and extraction never has to do
without one. -/

namespace Defeasible

namespace Theory

variable {t : Theory} {E : Error → Prop} {asked : Literal → Prop} {hardRules : ClauseSet}
  {vocabulary : LiteralSet} {bounds bounds' : BoundTable} {defaults found : OrdSet DefaultRule} {length n : Nat}
  {b : Bound} {c : LiteralSet} {l : Literal}

structure Explored (t : Theory) (vocabulary : LiteralSet) (length : Nat) (bounds : BoundTable) : Prop where
  indexed : bounds.Indexed
  describes : ∀ b ∈ bounds.toList, t.Describes vocabulary b
  size_le : ∀ b ∈ bounds.toList, b.lower.size ≤ length
  root : ∃ b ∈ bounds.toList, b.lower.size = 0
  closed : ∀ b ∈ bounds.toList, b.lower.size < length → ∀ c ∈ candidates b vocabulary, bounds.Covers c

structure Fresh (t : Theory) (hardRules : ClauseSet) (rules : OrdSet DefaultRule) (b : Bound) (l : Literal) :
    Prop where
  implied : l ∈ b.implied
  new : b.lower.size = 0 ∨ ¬ t.Redundant hardRules (shorter rules b.lower.size) b.lower l

theorem fresh_congr {rules rules' : OrdSet DefaultRule}
    (same : shorter rules b.lower.size = shorter rules' b.lower.size) :
    t.Fresh hardRules rules b l ↔ t.Fresh hardRules rules' b l :=
  ⟨fun fresh => ⟨fresh.implied, same ▸ fresh.new⟩, fun fresh => ⟨fresh.implied, same.symm ▸ fresh.new⟩⟩

def Collects (t : Theory) (hardRules : ClauseSet) (bounds : BoundTable) (defaults : OrdSet DefaultRule) :
    Prop :=
  ∀ r, r ∈ defaults ↔ ∃ b ∈ bounds.toList, ∃ l, t.Fresh hardRules defaults b l ∧ defaultOf b.lower l = r

theorem ground_atoms (ground : ∀ c ∈ t.clauses, c.isGround = true)
    (ground_additional : ∀ l ∈ t.additionalAtoms, l.isGround = true) :
    ∀ l ∈ t.atoms, l.isGround = true := by
  intro l hl
  rcases OrdSet.mem_union.1 hl with hl | hl
  · obtain ⟨m, hm, rfl⟩ := List.mem_map.1 (OrdSet.mem_ofList.1 hl)
    obtain ⟨c, hc, hm⟩ := List.mem_flatMap.1 hm
    exact List.all_eq_true.1 (ground c hc) m hm
  · exact ground_additional l hl

/-! ### Bounds -/

theorem size_of_mem_extensions (describes : ∀ b ∈ bounds.toList, t.Describes vocabulary b)
    (indexed : bounds.Indexed) (mem : c ∈ extensions vocabulary (bounds.ofLength n)) : c.size = n + 1 := by
  obtain ⟨b, hb, hc⟩ := List.mem_flatMap.1 mem
  obtain ⟨stored, rfl⟩ := (BoundTable.mem_ofLength indexed).1 hb
  obtain ⟨l, -, not_upper, -, rfl⟩ := mem_candidates.1 hc
  exact OrdSet.size_insert fun hl => not_upper (((describes b stored).upper_iff l).2 (.inr hl))

namespace Explored

theorem init {implied : LiteralSet} (implied_iff : ∀ l, l ∈ implied ↔ t.Implied ∅ vocabulary.toList l) :
    t.Explored vocabulary 0 (({} : BoundTable).store ∅ implied) := by
  have only (b : Bound) (hb : b ∈ (({} : BoundTable).store ∅ implied).toList) : b = ⟨∅, implied⟩ :=
    List.mem_singleton.1 hb
  refine ⟨BoundTable.indexed_default.store _ _, fun b hb => ?_, fun b hb => ?_, ?_, fun _ _ => nofun⟩
  · rw [only b hb]
    refine ⟨fun l hl => absurd hl (OrdSet.not_mem_empty l), fun l => (implied_iff l).trans ?_⟩
    exact (or_iff_left (OrdSet.not_mem_empty l)).symm
  · rw [only b hb]
    exact Nat.le_refl 0
  · exact ⟨⟨∅, implied⟩, List.mem_singleton_self _, rfl⟩

variable (explored : t.Explored vocabulary length bounds)

include explored

theorem mem_of_stored
    (stores : t.Stores vocabulary (extensions vocabulary (bounds.ofLength length)) bounds bounds')
    (hb : b ∈ bounds'.toList) :
    b ∈ bounds.toList ∨ b.lower.size = length + 1 ∧ t.Describes vocabulary b :=
  (stores.stored b hb).imp_right fun h =>
    ⟨size_of_mem_extensions explored.describes explored.indexed h.1, h.2⟩

theorem advance
    (stores : t.Stores vocabulary (extensions vocabulary (bounds.ofLength length)) bounds bounds') :
    t.Explored vocabulary (length + 1) bounds' := by
  refine ⟨stores.indexed, fun b hb => ?_, fun b hb => ?_, ?_, fun b hb lt c hc => ?_⟩
  · exact (explored.mem_of_stored stores hb).elim (explored.describes b) fun h => h.2
  · rcases explored.mem_of_stored stores hb with hb | ⟨size, -⟩
    · exact Nat.le_succ_of_le (explored.size_le b hb)
    · exact Nat.le_of_eq size
  · exact explored.root.imp fun b h => ⟨stores.kept b h.1, h.2⟩
  · rcases explored.mem_of_stored stores hb with hb | ⟨size, -⟩
    · rcases Nat.lt_or_eq_of_le (Nat.le_of_lt_succ lt) with lt | size
      · exact (explored.closed b hb lt c hc).mono stores.kept
      · refine stores.covered c (List.mem_flatMap.2 ⟨b, ?_, hc⟩)
        exact (BoundTable.mem_ofLength explored.indexed).2 ⟨hb, size⟩
    · exact absurd size (Nat.ne_of_lt lt)

theorem extend (none : ∀ b ∈ bounds.toList, b.lower.size ≠ length) (le : length ≤ n) :
    t.Explored vocabulary n bounds :=
  ⟨explored.indexed, explored.describes, fun b hb => Nat.le_trans (explored.size_le b hb) le, explored.root,
    fun b hb _ => explored.closed b hb (Nat.lt_of_le_of_ne (explored.size_le b hb) (none b hb))⟩

end Explored

/-! ### Defaults -/

namespace Collects

section Members

variable (collects : t.Collects hardRules bounds defaults)
  (describes : ∀ b ∈ bounds.toList, t.Describes vocabulary b)

include collects describes

theorem within (negate : ∀ l, asked l → asked l.negate) (asked_vocabulary : ∀ l ∈ vocabulary, asked l) :
    ∀ r ∈ defaults, r.Within asked := by
  intro r hr
  obtain ⟨b, hb, l, fresh, rfl⟩ := (collects r).1 hr
  have implied := (describes b hb).mem_implied.1 fresh.implied
  refine ⟨fun m hm => asked_of_within negate asked_vocabulary ((describes b hb).within m hm), fun m hm => ?_⟩
  rw [Clause.mem_unit.1 hm]
  exact asked_of_within negate asked_vocabulary implied.over_atoms

theorem ground (ground_vocabulary : ∀ l ∈ vocabulary, l.isGround = true) : ∀ r ∈ defaults, r.Ground :=
  fun r hr => (collects.within describes (fun _ => id) ground_vocabulary r hr).ground

theorem entails : ∀ r ∈ defaults, t.Entails r.evidence r.consequent := by
  intro r hr
  obtain ⟨b, hb, l, fresh, rfl⟩ := (collects r).1 hr
  exact ((describes b hb).mem_implied.1 fresh.implied).entails

theorem tolerant : Tolerant defaults := by
  refine tolerant_of_entails (collects.entails describes) fun r hr always => ?_
  obtain ⟨b, hb, l, fresh, rfl⟩ := (collects r).1 hr
  exact Clause.unit_can_fail l always

end Members

theorem default_or_redundant (collects : t.Collects hardRules bounds defaults) (hb : b ∈ bounds.toList)
    (implied : l ∈ b.implied) :
    defaultOf b.lower l ∈ defaults ∨ t.Redundant hardRules (shorter defaults b.lower.size) b.lower l := by
  by_cases redundant : t.Redundant hardRules (shorter defaults b.lower.size) b.lower l
  · exact .inr redundant
  · exact .inl ((collects _).2 ⟨b, hb, l, ⟨implied, .inr redundant⟩, rfl⟩)

theorem init {implied : LiteralSet} :
    t.Collects hardRules (({} : BoundTable).store ∅ implied) (.ofList (implied.toList.map (defaultOf ∅))) := by
  intro r
  have mem_implied (l : Literal) : l ∈ (⟨∅, implied⟩ : Bound).implied ↔ l ∈ implied :=
    Bound.mem_implied.trans (and_iff_left (OrdSet.not_mem_empty l))
  rw [OrdSet.mem_ofList, List.mem_map]
  constructor
  · rintro ⟨l, hl, rfl⟩
    exact ⟨⟨∅, implied⟩, List.mem_singleton_self _, l, ⟨(mem_implied l).2 hl, .inl rfl⟩, rfl⟩
  · rintro ⟨b, hb, l, fresh, rfl⟩
    obtain rfl := List.mem_singleton.1 hb
    exact ⟨l, (mem_implied l).1 fresh.implied, rfl⟩

theorem advance (collects : t.Collects hardRules bounds defaults)
    (explored : t.Explored vocabulary length bounds)
    (stores : t.Stores vocabulary (extensions vocabulary (bounds.ofLength length)) bounds bounds')
    (mem_found : ∀ r, r ∈ found ↔ ∃ b ∈ bounds'.ofLength (length + 1),
      ∃ l, (l ∈ b.implied ∧ ¬ t.Redundant hardRules defaults b.lower l) ∧ defaultOf b.lower l = r) :
    t.Collects hardRules bounds' (defaults ∪ found) := by
  have found_size (r : DefaultRule) (hr : r ∈ found) : r.antecedent.size = length + 1 := by
    obtain ⟨b, hb, l, -, rfl⟩ := (mem_found r).1 hr
    exact ((BoundTable.mem_ofLength stores.indexed).1 hb).2
  have default_size (r : DefaultRule) (hr : r ∈ defaults) : r.antecedent.size < length + 1 := by
    obtain ⟨b, hb, l, -, rfl⟩ := (collects r).1 hr
    exact Nat.lt_succ_of_le (explored.size_le b hb)
  have shorter_old {n : Nat} (le : n ≤ length + 1) : shorter (defaults ∪ found) n = shorter defaults n :=
    shorter_union fun r hr => Nat.le_trans le (Nat.le_of_eq (found_size r hr).symm)
  have fresh_old (b : Bound) (hb : b ∈ bounds.toList) (l : Literal) :
      t.Fresh hardRules (defaults ∪ found) b l ↔ t.Fresh hardRules defaults b l :=
    fresh_congr (shorter_old (Nat.le_succ_of_le (explored.size_le b hb)))
  have fresh_new (b : Bound) (size : b.lower.size = length + 1) (l : Literal) :
      t.Fresh hardRules (defaults ∪ found) b l ↔
        l ∈ b.implied ∧ ¬ t.Redundant hardRules defaults b.lower l := by
    have same : shorter (defaults ∪ found) b.lower.size = defaults := by
      rw [size, shorter_old (Nat.le_refl _), shorter_eq_self default_size]
    refine ⟨fun h => ⟨h.implied, ?_⟩, fun h => ⟨h.1, .inr (same.symm ▸ h.2)⟩⟩
    exact same ▸ h.new.resolve_left (by omega)
  intro r
  rw [OrdSet.mem_union, collects, mem_found]
  constructor
  · rintro (⟨b, hb, l, fresh, rfl⟩ | ⟨b, hb, l, fresh, rfl⟩)
    · exact ⟨b, stores.kept b hb, l, (fresh_old b hb l).2 fresh, rfl⟩
    · obtain ⟨hb, size⟩ := (BoundTable.mem_ofLength stores.indexed).1 hb
      exact ⟨b, hb, l, (fresh_new b size l).2 fresh, rfl⟩
  · rintro ⟨b, hb, l, fresh, rfl⟩
    rcases explored.mem_of_stored stores hb with old | ⟨size, -⟩
    · exact .inl ⟨b, old, l, (fresh_old b old l).1 fresh, rfl⟩
    · refine .inr ⟨b, ?_, l, (fresh_new b size l).1 fresh, rfl⟩
      exact (BoundTable.mem_ofLength stores.indexed).2 ⟨hb, size⟩

end Collects

/-! ### Extraction -/

def extractFromOr (t : Theory) (otherwise : Query (List ClauseSet)) (hardRules : ClauseSet)
    (vocabulary : LiteralSet) : (lengths : Nat) → (length : Nat) → BoundTable → OrdSet DefaultRule →
    Query (OrdSet DefaultRule)
  | 0, _, _, defaults => return defaults
  | lengths + 1, length, bounds, defaults => do
    let shorter ← closureStrataOr otherwise t.settings defaults
    let bounds ← t.storeCandidates vocabulary (bounds.ofLength (length - 1)) bounds
    let found ← (bounds.ofLength length).mapM fun b => do
      return (← t.news hardRules shorter b).map (defaultOf b.lower)
    extractFromOr t otherwise hardRules vocabulary lengths (length + 1) bounds
      (defaults ∪ .ofList found.flatten)

def extractOr (t : Theory) (otherwise : Query (List ClauseSet)) (hardRules : ClauseSet) (maxLength : Nat) :
    Query (OrdSet DefaultRule) := do
  let t := t.settle
  let implied ← t.impliedLiterals ∅ t.atoms.toList
  let bounds := ({} : BoundTable).store ∅ implied
  t.extractFromOr otherwise hardRules t.atoms maxLength 1 bounds (.ofList (implied.toList.map (defaultOf ∅)))

theorem closureStrataOr_pure (settings : Settings) (rules : OrdSet DefaultRule) :
    closureStrataOr (pure []) settings rules = closureStrata settings rules :=
  bind_congr fun closure => by cases closure <;> rfl

theorem extractFromOr_pure {lengths : Nat} :
    t.extractFromOr (pure []) hardRules vocabulary lengths length bounds defaults =
      t.extractFrom hardRules vocabulary lengths length bounds defaults := by
  induction lengths generalizing length bounds defaults with
  | zero => rfl
  | succ lengths ih => simp only [extractFromOr, extractFrom, closureStrataOr_pure, ih]

theorem extractOr_pure (t : Theory) (hardRules : ClauseSet) (maxLength : Nat) :
    t.extractOr (pure []) hardRules maxLength = t.extract hardRules maxLength := by
  simp only [extractOr, extract, extractFromOr_pure]

namespace Extractable

variable (extractable : t.Extractable hardRules asked E) (asked_vocabulary : ∀ l ∈ vocabulary, asked l)

include extractable asked_vocabulary

theorem extractFrom_follows (otherwise : Query (List ClauseSet)) {lengths : Nat}
    (explored : t.Explored vocabulary length bounds) (collects : t.Collects hardRules bounds defaults) :
    (t.extractFromOr otherwise hardRules vocabulary lengths (length + 1) bounds defaults).Follows
      (t.extractFrom hardRules vocabulary lengths (length + 1) bounds defaults)
      (fun defaults => ∃ bounds, t.Explored vocabulary (length + lengths) bounds ∧
        t.Collects hardRules bounds defaults) E := by
  induction lengths generalizing length bounds defaults with
  | zero => exact .of_meets (.pure ⟨bounds, explored, collects⟩)
  | succ lengths ih =>
    have askable := extractable.askable
    have within_defaults := collects.within explored.describes askable.negate asked_vocabulary
    have tolerant := collects.tolerant explored.describes
    rw [extractFrom, extractFromOr, Nat.add_sub_cancel]
    refine (closureStrata_follows (extractable.closes defaults within_defaults) tolerant otherwise).bind
      fun strata closed => ?_
    obtain ⟨closure, closes, rfl⟩ := closed
    have within_previous (b : Bound) (hb : b ∈ bounds.ofLength length) :=
      (explored.describes b ((BoundTable.mem_ofLength explored.indexed).1 hb).1).within
    refine (Query.Follows.of_meets (askable.storeCandidates_meets asked_vocabulary explored.indexed
      within_previous)).bind fun bounds' stores => ?_
    have explored' := explored.advance stores
    refine (Query.Follows.of_meets (Query.Meets.mapM (R := fun b r => ∃ l, (l ∈ b.implied ∧
      ¬ t.Redundant hardRules defaults b.lower l) ∧ defaultOf b.lower l = r) fun b hb => ?_)).bind
        fun found mem_found => ?_
    · have describes := explored'.describes b ((BoundTable.mem_ofLength explored'.indexed).1 hb).1
      have asked_lower (l : Literal) (hl : l ∈ b.lower) : asked l :=
        asked_of_within askable.negate asked_vocabulary (describes.within l hl)
      have asked_implied (l : Literal) (hl : l ∈ b.implied) : asked l :=
        asked_of_within askable.negate asked_vocabulary (describes.mem_implied.1 hl).over_atoms
      refine (extractable.news_meets within_defaults closes asked_lower asked_implied).bind
        fun ls mem_ls => .pure fun r => ?_
      simp only [List.mem_map, mem_ls]
    have collects' : t.Collects hardRules bounds' (defaults ∪ .ofList found.flatten) :=
      collects.advance explored stores fun r => OrdSet.mem_ofList.trans (mem_found.2 r)
    have total : length + 1 + lengths = length + (lengths + 1) := by omega
    rw [← total]
    exact ih explored' collects'

/-- Once no antecedent of a length is left, no more rules are found, though closures are still made. -/
theorem extractFrom_ended {lengths : Nat} (explored : t.Explored vocabulary length bounds)
    (collects : t.Collects hardRules bounds defaults) (ended : bounds.ofLength length = []) :
    (t.extractFrom hardRules vocabulary lengths (length + 1) bounds defaults).Meets (· = defaults) E := by
  have none (b : Bound) (hb : b ∈ bounds.toList) (size : b.lower.size = length) : False := by
    have hb := (BoundTable.mem_ofLength explored.indexed).2 ⟨hb, size⟩
    rw [ended] at hb
    cases hb
  induction lengths generalizing length with
  | zero => exact .pure rfl
  | succ lengths ih =>
    have within_defaults := collects.within explored.describes extractable.askable.negate asked_vocabulary
    have tolerant := collects.tolerant explored.describes
    have explored' : t.Explored vocabulary (length + 1) bounds := explored.extend none (Nat.le_succ length)
    have none' (b : Bound) (hb : b ∈ bounds.toList) : b.lower.size ≠ length + 1 :=
      Nat.ne_of_lt (Nat.lt_succ_of_le (explored.size_le b hb))
    have ended' : bounds.ofLength (length + 1) = [] := by
      refine List.eq_nil_iff_forall_not_mem.2 fun b hb => ?_
      obtain ⟨hb, size⟩ := (BoundTable.mem_ofLength explored.indexed).1 hb
      exact none' b hb size
    rw [extractFrom, Nat.add_sub_cancel, ended]
    refine (closureStrata_follows (extractable.closes defaults within_defaults) tolerant (pure [])).meets.bind
      fun strata _ => ?_
    rw [storeCandidates, List.foldlM_nil, pure_bind, ended', List.mapM_nil, pure_bind]
    have same : defaults ∪ .ofList ([] : List (List DefaultRule)).flatten = defaults :=
      OrdSet.ext fun r => OrdSet.mem_union.trans (or_iff_left fun h => by cases OrdSet.mem_ofList.1 h)
    rw [same]
    exact ih explored' ended' none'

end Extractable

theorem Extractable.extract_follows (extractable : t.settle.Extractable hardRules asked E)
    (asked_atoms : ∀ l ∈ t.atoms, asked l) (otherwise : Query (List ClauseSet)) (maxLength : Nat) :
    (t.extractOr otherwise hardRules maxLength).Follows (t.extract hardRules maxLength)
      (fun defaults => ∃ bounds, t.settle.Explored t.atoms maxLength bounds ∧
        t.settle.Collects hardRules bounds defaults) E := by
  have asked_none (l : Literal) (hl : l ∈ (∅ : LiteralSet)) : asked l := absurd hl (OrdSet.not_mem_empty l)
  refine (Query.Follows.of_meets (extractable.askable.impliedLiterals_meets asked_none asked_atoms)).bind
    fun implied implied_iff => ?_
  refine (extractable.extractFrom_follows asked_atoms otherwise (.init implied_iff) .init).imp
    fun defaults found => ?_
  rwa [Nat.zero_add] at found

theorem extract_meets (regular : t.Regular) (ground : ∀ c ∈ t.clauses, c.isGround = true)
    (probable : t.settings.Probable) (ground_hard : ∀ c ∈ hardRules, c.isGround = true)
    (ground_additional : ∀ l ∈ t.additionalAtoms, l.isGround = true) (maxLength : Nat) :
    (t.extract hardRules maxLength).Meets
      (fun defaults => ∃ bounds, t.settle.Explored t.atoms maxLength bounds ∧
        t.settle.Collects hardRules bounds defaults) t.settings.Hinders :=
  ((extractable_ground regular.settle ground probable ground_hard).extract_follows
    (ground_atoms ground ground_additional) (pure []) maxLength).meets

theorem extract_follows_any (regular : t.Regular) (probable : t.settings.Probable)
    (otherwise : Query (List ClauseSet)) (maxLength : Nat) :
    (t.extractOr otherwise hardRules maxLength).Follows (t.extract hardRules maxLength)
      (fun defaults => ∃ bounds, t.settle.Explored t.atoms maxLength bounds ∧
        t.settle.Collects hardRules bounds defaults) fun _ => True :=
  (extractable_any regular.settle probable).extract_follows (fun _ _ => trivial) otherwise maxLength

end Theory

end Defeasible
