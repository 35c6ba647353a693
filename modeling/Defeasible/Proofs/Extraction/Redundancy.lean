import Defeasible.Extraction.Default
import Defeasible.Proofs.Closure.Levels

/-! Which defaults are redundant: what they conclude follows from their antecedent already in the closure of
the shorter ones. Extraction finds this out where it may ask the theory and what is known from closures. -/

namespace Defeasible

def shorter (rules : OrdSet DefaultRule) (length : Nat) : OrdSet DefaultRule :=
  rules.filter fun r => r.antecedent.size < length

section Shorter

variable {rules others : OrdSet DefaultRule} {r : DefaultRule} {n : Nat}

theorem mem_shorter : r ∈ shorter rules n ↔ r ∈ rules ∧ r.antecedent.size < n := by
  rw [shorter, OrdSet.mem_filter, decide_eq_true_eq]

theorem shorter_eq_self (all : ∀ r ∈ rules, r.antecedent.size < n) : shorter rules n = rules :=
  OrdSet.ext fun r => mem_shorter.trans (and_iff_left_of_imp (all r))

theorem shorter_union (longer : ∀ r ∈ others, n ≤ r.antecedent.size) :
    shorter (rules ∪ others) n = shorter rules n := by
  refine OrdSet.ext fun r => ?_
  rw [mem_shorter, mem_shorter, OrdSet.mem_union]
  refine and_congr_left fun lt => or_iff_left fun hr => ?_
  exact absurd (longer r hr) (Nat.not_le.2 lt)

end Shorter

structure DefaultRule.Within (asked : Literal → Prop) (r : DefaultRule) : Prop where
  antecedent : ∀ l ∈ r.antecedent, asked l
  consequent : ∀ l ∈ r.consequent, asked l

theorem DefaultRule.Within.ground {r : DefaultRule} (within : r.Within (·.isGround = true)) : r.Ground :=
  ⟨List.all_eq_true.2 within.antecedent, List.all_eq_true.2 within.consequent⟩

namespace Theory

variable {t : Theory} {E : Error → Prop} {asked : Literal → Prop} {settings : Settings}
  {rules : OrdSet DefaultRule} {hardRules : ClauseSet} {strata : List ClauseSet} {closure : Theory}
  {evidence : Evidence} {c : Clause}

def known (t : Theory) (hardRules : ClauseSet) (strata : List ClauseSet) (evidence : Evidence) : Theory :=
  removeFalsified
    { (ofStrata strata).withHardRules hardRules with settings := t.settings, cached := t.cached } evidence

/-- Whether some evidence implies a literal already by the closure of some rules. -/
def Redundant (t : Theory) (hardRules : ClauseSet) (rules : OrdSet DefaultRule) (evidence : Evidence)
    (l : Literal) : Prop :=
  ∃ closure, Closes t.settings rules (some closure) ∧
    (t.known hardRules closure.strata evidence).Entails evidence (.unit l)

theorem regular_known (t : Theory) (hardRules : ClauseSet) (strata : List ClauseSet) (evidence : Evidence) :
    (t.known hardRules strata evidence).Regular :=
  .of_unknown ((regular_ofStrata strata).ascending.dropEmpty_map fun _ => rfl) rfl

theorem mem_of_mem_known (h : c ∈ (t.known hardRules strata evidence).clauses) :
    (∃ s ∈ strata, c ∈ s) ∨ c ∈ hardRules := by
  rcases mem_clauses.1 h with ⟨l, hl, hc⟩ | hc
  · obtain ⟨k, hk, rfl⟩ := List.mem_map.1 (List.mem_filter.1 hl).1
    exact .inl (mem_of_mem_ofStrata hk (OrdSet.mem_filter.1 hc).1)
  · rcases OrdSet.mem_union.1 hc with hc | hc
    · rw [ofStrata, hardRules_ofLevels] at hc
      exact absurd hc (OrdSet.not_mem_empty c)
    · exact .inr hc

theorem ground_strata (closes : Closes settings rules (some closure)) (ground : ∀ r ∈ rules, r.Ground) :
    ∀ s ∈ closure.strata, ∀ c ∈ s, c.isGround = true := by
  obtain ⟨answer, ranks, made⟩ := closes
  obtain ⟨ranks', rfl, rfl⟩ := Option.map_eq_some_iff.1 made.symm
  intro s hs c hc
  obtain ⟨l, hl, rfl⟩ := List.mem_map.1 hs
  exact ground_closureOf settings (Ranked.divides ranks) ground c (mem_clauses.2 (.inl ⟨l, hl, hc⟩))

theorem ground_known (closes : Closes settings rules (some closure)) (ground : ∀ r ∈ rules, r.Ground)
    (ground_hard : ∀ c ∈ hardRules, c.isGround = true) :
    ∀ c ∈ (t.known hardRules closure.strata evidence).clauses, c.isGround = true := by
  intro c hc
  rcases mem_of_mem_known hc with ⟨s, hs, hc⟩ | hc
  · exact ground_strata closes ground s hs c hc
  · exact ground_hard c hc

theorem redundant_iff {l : Literal} (closes : Closes t.settings rules (some closure)) :
    t.Redundant hardRules rules evidence l ↔
      (t.known hardRules closure.strata evidence).Entails evidence (.unit l) := by
  refine ⟨fun ⟨closure', closes', entails⟩ => ?_, fun entails => ⟨closure, closes, entails⟩⟩
  obtain rfl := Option.some.inj (closes'.unique closes)
  exact entails

section Answers

variable {l : Literal} (probable : t.settings.Probable) (ground : ∀ r ∈ rules, r.Ground)
  (ground_hard : ∀ c ∈ hardRules, c.isGround = true) (ground_evidence : ∀ l ∈ evidence, l.isGround = true)
  (ground_literal : l.isGround = true)

include probable ground ground_hard ground_evidence ground_literal

theorem answers_of_closes (closes : Closes t.settings rules (some closure)) {b : Bool}
    (b_iff : b = true ↔ t.Redundant hardRules rules evidence l) :
    (rationalClosure t.settings rules).Answers t.settings (some closure) ∧
      ((t.known hardRules closure.strata evidence).impliesLiteral evidence l).Answers t.settings b := by
  refine ⟨(rationalClosure_meets probable ground).answers fun _ closes' => closes'.unique closes, ?_⟩
  exact implies_answers (t.regular_known hardRules closure.strata evidence)
    (ground_known closes ground ground_hard) probable ground_evidence (Clause.ground_unit ground_literal)
    (b_iff.trans (redundant_iff closes))

theorem Redundant.answers (redundant : t.Redundant hardRules rules evidence l) :
    ∃ closure, (rationalClosure t.settings rules).Answers t.settings (some closure) ∧
      ((t.known hardRules closure.strata evidence).impliesLiteral evidence l).Answers t.settings true := by
  obtain ⟨closure, closes, -⟩ := id redundant
  exact ⟨closure, answers_of_closes probable ground ground_hard ground_evidence ground_literal closes
    (iff_of_true rfl redundant)⟩

end Answers

/-! ### What extraction asks -/

/-- Whether extraction may ask about some literals, the theory as well as what is known from closures, and finds
these closures, but for errors of some kind. -/
structure Extractable (t : Theory) (hardRules : ClauseSet) (asked : Literal → Prop) (E : Error → Prop) :
    Prop where
  askable : t.Askable asked E
  closes : ∀ rules : OrdSet DefaultRule, (∀ r ∈ rules, r.Within asked) →
    (rationalClosure t.settings rules).Meets (Closes t.settings rules) E
  known : ∀ (rules : OrdSet DefaultRule) (closure : Theory) (evidence : Evidence),
    (∀ r ∈ rules, r.Within asked) → Closes t.settings rules (some closure) →
      (t.known hardRules closure.strata evidence).Askable asked E

theorem extractable_ground (regular : t.Regular) (ground : ∀ c ∈ t.clauses, c.isGround = true)
    (probable : t.settings.Probable) (ground_hard : ∀ c ∈ hardRules, c.isGround = true) :
    t.Extractable hardRules (·.isGround = true) t.settings.Hinders := by
  refine ⟨askable_ground regular ground (solves_within probable), fun rules within => ?_,
    fun rules closure evidence within closes => ?_⟩
  · exact rationalClosure_meets probable fun r hr => (within r hr).ground
  · have solves : (t.known hardRules closure.strata evidence).Solves t.settings.Hinders :=
      solves_within probable
    exact askable_ground (t.regular_known hardRules closure.strata evidence)
      (ground_known closes (fun r hr => (within r hr).ground) ground_hard) solves

theorem extractable_any (regular : t.Regular) (probable : t.settings.Probable) :
    t.Extractable hardRules (fun _ => True) fun _ => True :=
  ⟨askable_any regular probable, fun _ _ => rationalClosure_meets_any probable,
    fun _ closure evidence _ _ => askable_any (t.regular_known hardRules closure.strata evidence) probable⟩

def closureStrataOr (otherwise : Query (List ClauseSet)) (settings : Settings) (rules : OrdSet DefaultRule) :
    Query (List ClauseSet) := do
  match ← rationalClosure settings rules with
  | some closure => return closure.strata
  | none => otherwise

theorem closureStrata_follows (meets : (rationalClosure settings rules).Meets (Closes settings rules) E)
    (tolerant : Tolerant rules) (otherwise : Query (List ClauseSet)) :
    (closureStrataOr otherwise settings rules).Follows (closureStrata settings rules)
      (fun strata => ∃ closure, Closes settings rules (some closure) ∧ closure.strata = strata) E := by
  refine (Query.Follows.of_meets meets).bind fun answer closes => ?_
  cases answer with
  | some closure => exact .of_meets (.pure ⟨closure, closes, rfl⟩)
  | none =>
    obtain ⟨ranks, exact, none⟩ := closes
    obtain rfl := Option.map_eq_none_iff.1 none.symm
    exact absurd tolerant exact

theorem Extractable.news_meets (extractable : t.Extractable hardRules asked E) {b : Bound}
    (within : ∀ r ∈ rules, r.Within asked) (closes : Closes t.settings rules (some closure))
    (asked_lower : ∀ l ∈ b.lower, asked l) (asked_implied : ∀ l ∈ b.implied, asked l) :
    (t.news hardRules closure.strata b).Meets
      (fun ls => ∀ l, l ∈ ls ↔ l ∈ b.implied ∧ ¬ t.Redundant hardRules rules b.lower l) E := by
  refine Query.Meets.filterM fun l hl => ?_
  rw [redundant_iff closes]
  refine ((extractable.known rules closure b.lower within closes).impliesLiteral_meets asked_lower
    (asked_implied l hl)).bind fun answer entails => .pure ?_
  rw [← entails, Bool.not_eq_true', Bool.not_eq_true]

end Theory

end Defeasible
