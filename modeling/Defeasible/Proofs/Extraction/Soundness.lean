import Defeasible.Proofs.Extraction.Exploration
import Defeasible.Proofs.Theory.Grounded

/-! Extraction is sound: the defaults are implied, and none is redundant. What was known of a length when its
defaults were found, the shorter of all defaults still tell. Where some atom is not ground, extraction comes to
an end only if without evidence no level is consistent, and then there are no defaults. -/

namespace Defeasible

open Query (Answers)

theorem Literal.eq_or_eq_negate {l m : Literal} (same : m.positive = l.positive) : m = l ∨ m = l.negate := by
  obtain ⟨_, _, p⟩ := l
  obtain ⟨_, _, q⟩ := m
  cases same
  cases p <;> cases q
  · exact .inl rfl
  · exact .inr rfl
  · exact .inr rfl
  · exact .inl rfl

theorem exists_closes (settings : Settings) {rules : OrdSet DefaultRule} (ground : ∀ r ∈ rules, r.Ground)
    (tolerant : Tolerant rules) : ∃ closure, Closes settings rules (some closure) := by
  obtain ⟨ranks, ranked⟩ := exists_ranked ground tolerant
  exact ⟨closureOf settings ranks, some ranks, ranked, rfl⟩

namespace Theory

variable {t : Theory} {hardRules : ClauseSet} {maxLength : Nat} {defaults : OrdSet DefaultRule}

/-- Why there is a default: its antecedent is short, speaks of other atoms and implies its consequent, which the
shorter defaults do not. -/
structure Justified (t : Theory) (hardRules : ClauseSet) (maxLength : Nat) (defaults : OrdSet DefaultRule)
    (lower : LiteralSet) (l : Literal) : Prop where
  size_le : lower.size ≤ maxLength
  other_atoms : ∀ m ∈ lower, m.positive ≠ l.positive
  implied : (t.impliesLiteral lower l).Answers t.settings true
  new : (∃ m, m ∈ lower) → ∃ closure,
    (rationalClosure t.settings (shorter defaults lower.size)).Answers t.settings (some closure) ∧
      ((t.known hardRules closure.strata lower).impliesLiteral lower l).Answers t.settings false

section Run

variable (regular : t.Regular) (probable : t.settings.Probable) {s s' : Session} (truthful : s.Truthful)
  (extracted : (t.extract hardRules maxLength).run s = (.ok defaults, s'))

include regular probable truthful extracted

theorem exists_bounds : ∃ bounds, t.settle.Explored t.atoms maxLength bounds ∧
    t.settle.Collects hardRules bounds defaults :=
  (extract_follows_any regular probable (pure []) maxLength).meets.of_run truthful extracted

theorem ground_atoms_of_extracted (grounded : s.Grounded) {n : Necessity} (preferred : t.settle.Preferred ∅ n) :
    ∀ l ∈ t.atoms, l.isGround = true := by
  rw [extract] at extracted
  obtain ⟨implied, s₁, first, -⟩ := Query.of_run_bind extracted
  obtain ⟨-, -, ground⟩ := impliedLiterals_secures (t := t.settle) probable regular.settle preferred
    s truthful grounded implied s₁ first
  exact fun l hl => ground l hl (OrdSet.not_mem_empty l) (OrdSet.not_mem_empty _)

theorem ground_of_extracted (grounded : s.Grounded) : ∀ r ∈ defaults, r.Ground := by
  obtain ⟨bounds, explored, collects⟩ := exists_bounds regular probable truthful extracted
  intro r hr
  obtain ⟨b, hb, l, fresh, rfl⟩ := (collects r).1 hr
  obtain ⟨k, preferred⟩ := ((explored.describes b hb).mem_implied.1 fresh.implied).entails.exists_preferred
  obtain ⟨n, lowest, -⟩ : ∃ n, t.settle.Preferred ∅ n ∧ n ≤ k :=
    exists_preferred_of_subset preferred fun l hl => absurd hl (OrdSet.not_mem_empty l)
  have ground := ground_atoms_of_extracted regular probable truthful extracted grounded lowest
  exact collects.ground explored.describes ground _ hr

end Run

/-- Extraction from a ground theory is sound, and comes to an end if nothing hinders it. Atoms of no clause need
not be ground, but then it may fail. -/
theorem extract_sound (t : Theory) (regular : t.Regular) (ground : ∀ c ∈ t.clauses, c.isGround = true)
    (probable : t.settings.Probable) (hardRules : ClauseSet) (ground_hard : ∀ c ∈ hardRules, c.isGround = true)
    (maxLength : Nat) (s : Session) (truthful : s.Truthful) (grounded : s.Grounded) :
    (t.settings.solveLimit? = none → (∀ l ∈ t.additionalAtoms, l.isGround = true) →
      ∃ defaults s', (t.extract hardRules maxLength).run s = (.ok defaults, s')) ∧
    ∀ defaults s', (t.extract hardRules maxLength).run s = (.ok defaults, s') →
      ∀ r ∈ defaults, ∃ lower l, r = defaultOf lower l ∧ t.Justified hardRules maxLength defaults lower l := by
  refine ⟨fun untimed ground_additional => ?_, fun defaults s' extracted r hr => ?_⟩
  · have meets := extract_meets regular ground probable ground_hard ground_additional maxLength
    obtain ⟨defaults, s', run, -⟩ := (meets.unhindered untimed).result truthful
    exact ⟨defaults, s', run⟩
  obtain ⟨bounds, explored, collects⟩ := exists_bounds regular probable truthful extracted
  have ground_defaults := ground_of_extracted regular probable truthful extracted grounded
  obtain ⟨b, hb, l, fresh, rfl⟩ := (collects r).1 hr
  have implied := (explored.describes b hb).mem_implied.1 fresh.implied
  have ground_lower : ∀ m ∈ b.lower, m.isGround = true :=
    List.all_eq_true.1 (ground_defaults _ hr).antecedent
  have ground_literal : l.isGround = true :=
    List.all_eq_true.1 (ground_defaults _ hr).consequent l (Clause.mem_unit.2 rfl)
  refine ⟨b.lower, l, rfl, explored.size_le b hb, fun m hm same => ?_, ?_, fun ⟨m, hm⟩ => ?_⟩
  · rcases Literal.eq_or_eq_negate same with rfl | rfl
    · exact implied.not_mem hm
    · exact implied.negate_not_mem hm
  · exact implies_answers regular ground probable ground_lower (Clause.ground_unit ground_literal)
      (iff_of_true rfl (entails_settle.1 implied.entails))
  · have not_redundant := fresh.new.resolve_left fun empty => OrdSet.size_eq_zero.1 empty m hm
    have subset (r : DefaultRule) (hr : r ∈ shorter defaults b.lower.size) : r ∈ defaults :=
      (mem_shorter.1 hr).1
    have ground_shorter (r : DefaultRule) (hr : r ∈ shorter defaults b.lower.size) : r.Ground :=
      ground_defaults r (subset r hr)
    have tolerant := (collects.tolerant explored.describes).of_subset subset
    obtain ⟨closure, closes⟩ := exists_closes t.settings ground_shorter tolerant
    exact ⟨closure, answers_of_closes (t := t.settle) probable ground_shorter ground_hard ground_lower
      ground_literal closes (iff_of_false nofun not_redundant)⟩

theorem extract_sound_penguins : ∃ defaults s', (penguins.extract ∅ 1).run {} = (.ok defaults, s') ∧
    penguins.Justified ∅ 1 defaults (.singleton ⟨"penguin", [], true⟩) ⟨"flies", [], false⟩ := by
  obtain ⟨ends, sound⟩ := extract_sound penguins regular_penguins (by decide +kernel)
    Settings.probable_default ∅ (by decide +kernel) 1 {} (Session.truthful_new _) (Session.grounded_new _)
  obtain ⟨defaults, s', run⟩ := ends rfl (by decide +kernel)
  have found : (((penguins.extract ∅ 1).run {}).1.map fun defaults =>
      defaults.has (defaultOf (.singleton ⟨"penguin", [], true⟩) ⟨"flies", [], false⟩)) = .ok true := by
    decide +kernel
  rw [run] at found
  obtain ⟨lower, l, same, justified⟩ := sound defaults s' run _ (OrdSet.has_eq_true.1 (Except.ok.inj found))
  rw [defaultOf, defaultOf, DefaultRule.mk.injEq, Clause.mk.injEq] at same
  obtain ⟨rfl, same⟩ := same
  obtain rfl : _ = l := Clause.mem_unit.1 (same ▸ Clause.mem_unit.2 rfl)
  exact ⟨defaults, s', run, justified⟩

end Theory

end Defeasible
