import Defeasible.Proofs.Extraction.Exploration

/-! Extraction misses nothing. Antecedents grow only from stored ones, and many are passed over as they are
between the two sets of a bound. Still, where a bound does not imply all of some evidence that it is part of,
there is a bound that prefers a higher level, or the same level and implies more of the evidence. As there are
only so many bounds, some bound implies all of it. -/

namespace Defeasible

open Query (Answers)

theorem Literal.mem_or_negate_mem {atoms : LiteralSet} {l : Literal} (h : l.positive ∈ atoms) :
    l ∈ atoms ∨ l.negate ∈ atoms := by
  rcases l with ⟨predicate, arguments, _ | _⟩
  · exact .inr h
  · exact .inl h

namespace Theory

variable {t : Theory} {vocabulary set : LiteralSet} {bounds : BoundTable} {length : Nat} {n k : Necessity}
  {b : Bound} {l : Literal}

structure Within (t : Theory) (bounds : BoundTable) (set : LiteralSet) (n : Necessity) (b : Bound) : Prop where
  mem : b ∈ bounds.toList
  subset : ∀ l ∈ b.lower, l ∈ set
  preferred : t.Preferred b.lower n

open Classical in
noncomputable def unimplied (t : Theory) (set : LiteralSet) (b : Bound) : LiteralSet :=
  set.filter fun l => ¬ t.Entails b.lower (.unit l)

theorem mem_unimplied : l ∈ t.unimplied set b ↔ l ∈ set ∧ ¬ t.Entails b.lower (.unit l) := by
  simp only [unimplied, OrdSet.mem_filter, decide_eq_true_eq]

namespace Explored

variable (explored : t.Explored vocabulary length bounds)
  (over_vocabulary : ∀ l ∈ set, l ∈ vocabulary ∨ l.negate ∈ vocabulary) (size_le : set.size ≤ length)
  (preferred : t.Preferred set k)

include explored over_vocabulary size_le preferred

/-- A literal that a bound does not imply leads to another bound further up. -/
theorem climb (within : t.Within bounds set n b) (hl : l ∈ set) (fails : ¬ t.Entails b.lower (.unit l)) :
    ∃ b' m, t.Within bounds set m b' ∧
      (n < m ∨ n = m ∧ (t.unimplied set b').size < (t.unimplied set b).size) := by
  have describes := explored.describes b within.mem
  have not_lower : ¬ l ∈ b.lower := fun hl => fails (within.preferred.entails_of_mem hl)
  have not_upper : ¬ l ∈ b.upper := fun hl =>
    ((describes.upper_iff l).1 hl).elim (fun implied => fails implied.entails) not_lower
  have negate_not_lower : ¬ l.negate ∈ b.lower := by
    intro opposite
    obtain ⟨w, model⟩ := preferred.consistent
    exact Literal.holds_negate.1 (model.evidence _ (within.subset _ opposite)) (model.evidence l hl)
  have lt : b.lower.size < length :=
    Nat.lt_of_lt_of_le (OrdSet.size_lt_of_subset within.subset hl not_lower) size_le
  obtain ⟨b', hb', -, contains⟩ := explored.closed b within.mem lt _
    (mem_candidates.2 ⟨l, over_vocabulary l hl, not_upper, negate_not_lower, rfl⟩)
  have between := (explored.describes b' hb').between contains
  have part : ∀ m ∈ b.lower.insert l, m ∈ set := fun m hm =>
    (OrdSet.mem_insert.1 hm).elim (fun same => same ▸ hl) (within.subset m)
  have lower : ∀ m ∈ b.lower, m ∈ b.lower.insert l := fun m hm => OrdSet.mem_insert.2 (.inr hm)
  obtain ⟨m, grown, -⟩ := exists_preferred_of_subset preferred part
  have le : n ≤ m := within.preferred.le grown.mem (grown.consistent.of_subset lower)
  refine ⟨b', m, ⟨hb', fun x hx => part x (between.lower x hx), between.preferred_iff.1 grown⟩, ?_⟩
  by_cases higher : n < m
  · exact .inl higher
  -- At the same level the models of the larger part are among those of the smaller.
  obtain rfl := Necessity.eq_of_not_lt higher (Necessity.not_lt.2 le)
  have kept {c : Clause} (entails : t.Entails b.lower c) : t.Entails b'.lower c :=
    between.entails_iff.1 (grown.entails_iff.2 fun w model =>
      within.preferred.entails_iff.1 entails w (model.of_subset lower))
  have implied : t.Entails b'.lower (.unit l) :=
    between.entails_iff.1 (grown.entails_of_mem (OrdSet.mem_insert.2 (.inl rfl)))
  refine .inr ⟨rfl, OrdSet.size_lt_of_subset (fun x hx => ?_) (mem_unimplied.2 ⟨hl, fails⟩)
    fun hl => (mem_unimplied.1 hl).2 implied⟩
  obtain ⟨hx, fails⟩ := mem_unimplied.1 hx
  exact mem_unimplied.2 ⟨hx, fun entails => fails (kept entails)⟩

theorem exists_between_of_within {n : Necessity} {b : Bound} (within : t.Within bounds set n b) :
    ∃ b ∈ bounds.toList, t.Between b.lower set := by
  by_cases all : ∀ l ∈ set, t.Entails b.lower (.unit l)
  · exact ⟨b, within.mem, within.subset, fun l hl => .inr (all l hl)⟩
  simp only [not_forall] at all
  obtain ⟨l, hl, fails⟩ := all
  obtain ⟨b', m, within', further⟩ := explored.climb over_vocabulary size_le preferred within hl fails
  have le : m ≤ k := within'.preferred.le preferred.mem (preferred.consistent.of_subset within'.subset)
  exact exists_between_of_within within'
termination_by (k.bits.toNat - n.bits.toNat, (t.unimplied set b).size)
decreasing_by
  rcases further with higher | ⟨rfl, fewer⟩
  · have higher := UInt64.lt_iff_toNat_lt.1 higher
    have le := UInt64.le_iff_toNat_le.1 le
    exact Prod.Lex.left _ _ (by omega)
  · exact Prod.Lex.right _ fewer

theorem exists_between : ∃ b ∈ bounds.toList, t.Between b.lower set := by
  obtain ⟨root, hroot, empty⟩ := explored.root
  have subset (l : Literal) (hl : l ∈ root.lower) : l ∈ set := absurd hl (OrdSet.size_eq_zero.1 empty l)
  obtain ⟨n, lowest, -⟩ := exists_preferred_of_subset preferred subset
  exact explored.exists_between_of_within over_vocabulary size_le preferred ⟨hroot, subset, lowest⟩

theorem exists_bound (entails : t.Entails set (.unit l))
    (l_over_vocabulary : l ∈ vocabulary ∨ l.negate ∈ vocabulary) (not_mem : ¬ l ∈ set) :
    ∃ b ∈ bounds.toList, t.Between b.lower set ∧ l ∈ b.implied := by
  obtain ⟨b, hb, between⟩ := explored.exists_between over_vocabulary size_le preferred
  refine ⟨b, hb, between, (explored.describes b hb).mem_implied.2
    ⟨l_over_vocabulary, fun hl => not_mem (between.lower l hl), fun opposite => ?_,
      between.entails_iff.1 entails⟩⟩
  exact entails.not_negate (preferred.entails_of_mem (between.lower _ opposite))

end Explored

/-- Whether some defaults tell from a part of some evidence that it implies a literal. The part implies all of
the evidence, and the default from it is there or redundant. -/
structure Told (t : Theory) (hardRules : ClauseSet) (defaults : OrdSet DefaultRule) (set : LiteralSet)
    (l : Literal) (lower : LiteralSet) : Prop where
  subset : ∀ m ∈ lower, m ∈ set
  restores : ∀ m ∈ set, (t.impliesLiteral lower m).Answers t.settings true
  implies : (t.impliesLiteral lower l).Answers t.settings true
  default_or_redundant : defaultOf lower l ∈ defaults ∨
    ∃ closure, (rationalClosure t.settings (shorter defaults lower.size)).Answers t.settings (some closure) ∧
      ((t.known hardRules closure.strata lower).impliesLiteral lower l).Answers t.settings true

/-- Extraction is complete: what a theory implies from at most so many literals over its atoms, it implies
from some of them by a default that is extracted or redundant. Opposite literals need not be excluded, as they
imply no literal. -/
theorem extract_complete (t : Theory) (regular : t.Regular) (ground : ∀ c ∈ t.clauses, c.isGround = true)
    (ground_additional : ∀ l ∈ t.additionalAtoms, l.isGround = true) (probable : t.settings.Probable)
    (hardRules : ClauseSet) (ground_hard : ∀ c ∈ hardRules, c.isGround = true) (maxLength : Nat) :
    (t.extract hardRules maxLength).Meets
      (fun defaults => ∀ (set : LiteralSet) (l : Literal), set.size ≤ maxLength →
        (∀ m ∈ set, m.positive ∈ t.atoms) → l.positive ∈ t.atoms → ¬ l ∈ set →
        ∀ s s' : Session, s.Truthful → (t.impliesLiteral set l).run s = (.ok true, s') →
          ∃ lower, t.Told hardRules defaults set l lower) t.settings.Hinders := by
  have solves : t.Solves t.settings.Hinders := solves_within probable
  have ground_vocabulary := ground_atoms ground ground_additional
  have ground_literal {m : Literal} (hm : m.positive ∈ t.atoms) : m.isGround = true :=
    ground_vocabulary m.positive hm
  refine (extract_meets regular ground probable ground_hard ground_additional maxLength).imp ?_
  rintro defaults ⟨bounds, explored, collects⟩ set l size_le over_atoms l_over_atoms not_mem s s' truthful run
  have ground_set (m : Literal) (hm : m ∈ set) : m.isGround = true := ground_literal (over_atoms m hm)
  have implies := impliesLiteral_meets regular ground solves ground_set (ground_literal l_over_atoms)
  have entails : t.settle.Entails set (.unit l) := entails_settle.2 ((implies.of_run truthful run).1 rfl)
  obtain ⟨k, preferred⟩ := entails.exists_preferred
  obtain ⟨b, hb, between, implied⟩ := explored.exists_bound
    (fun m hm => Literal.mem_or_negate_mem (over_atoms m hm)) size_le preferred entails
    (Literal.mem_or_negate_mem l_over_atoms) not_mem
  have ground_lower (m : Literal) (hm : m ∈ b.lower) : m.isGround = true := ground_set m (between.lower m hm)
  have answers {m : Literal} (hm : m.positive ∈ t.atoms) (implied : t.settle.Entails set (.unit m)) :
      (t.impliesLiteral b.lower m).Answers t.settings true :=
    (impliesLiteral_meets regular ground solves ground_lower (ground_literal hm)).answers
      fun _ found => found.2 (entails_settle.1 (between.entails_iff.1 implied))
  refine ⟨b.lower, between.lower, fun m hm => answers (over_atoms m hm) (preferred.entails_of_mem hm),
    answers l_over_atoms entails, (collects.default_or_redundant hb implied).imp_right fun redundant => ?_⟩
  have ground_shorter (r : DefaultRule) (hr : r ∈ shorter defaults b.lower.size) : r.Ground :=
    collects.ground explored.describes ground_vocabulary r (mem_shorter.1 hr).1
  exact redundant.answers probable ground_shorter ground_hard ground_lower (ground_literal l_over_atoms)

theorem extract_complete_penguins : ∃ defaults s', (penguins.extract ∅ 2).run {} = (.ok defaults, s') ∧
    ∃ lower, penguins.Told ∅ defaults (.ofList [⟨"bird", [], true⟩, ⟨"penguin", [], true⟩])
      ⟨"flies", [], false⟩ lower := by
  have complete := extract_complete penguins regular_penguins (by decide +kernel) (by decide +kernel)
    Settings.probable_default ∅ (by decide +kernel) 2
  obtain ⟨defaults, s', extracted, -, told⟩ := (complete.unhindered rfl).result (Session.truthful_new _)
  have implied : ((penguins.impliesLiteral (.ofList [⟨"bird", [], true⟩, ⟨"penguin", [], true⟩])
      ⟨"flies", [], false⟩).run {}).1 = .ok true := by decide +kernel
  rcases run : (penguins.impliesLiteral (.ofList [⟨"bird", [], true⟩, ⟨"penguin", [], true⟩])
    ⟨"flies", [], false⟩).run {} with ⟨_, u⟩
  rw [run] at implied
  obtain rfl : _ = _ := implied
  exact ⟨defaults, s', extracted, told _ _ (by decide +kernel) (by decide +kernel) (by decide +kernel)
    (by decide +kernel) {} u (Session.truthful_new _) run⟩

end Theory

end Defeasible
