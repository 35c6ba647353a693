import Defeasible.Closure
import Defeasible.Proofs.OrdSet
import Defeasible.Proofs.Session
import Defeasible.Proofs.Settings

/-! Rankings by tolerance. A rank holds the rules that are tolerated by those not ranked before it, and there
are ranks just where every non-empty set of rules tolerates one of its own. -/

namespace Defeasible

open Query (Answers)

namespace DefaultRule

variable {r : DefaultRule} {rules : OrdSet DefaultRule} {part whole : Set DefaultRule} {w : World}

structure Ground (r : DefaultRule) : Prop where
  antecedent : r.antecedent.isGround = true
  consequent : r.consequent.isGround = true

instance (r : DefaultRule) : Decidable r.Ground :=
  decidable_of_iff (r.antecedent.isGround = true ∧ r.consequent.isGround = true)
    ⟨fun h => ⟨h.1, h.2⟩, fun h => ⟨h.1, h.2⟩⟩

def Tolerated (r : DefaultRule) (rules : Set DefaultRule) : Prop :=
  ∃ w : World, (∀ s ∈ rules, s.implication.Holds w) ∧ ∀ l ∈ r.antecedent, l.Holds w

theorem Tolerated.of_subset (tolerated : r.Tolerated whole) (subset : part ⊆ whole) : r.Tolerated part :=
  tolerated.imp fun _ model => ⟨fun s hs => model.1 s (subset hs), model.2⟩

theorem mem_implication {l : Literal} :
    l ∈ r.implication ↔ (∃ m ∈ r.antecedent, m.negate = l) ∨ l ∈ r.consequent := by
  refine OrdSet.mem_ofList.trans ?_
  rw [List.mem_append, Clause.negated, List.mem_map]
  rfl

theorem holds_implication :
    r.implication.Holds w ↔ ((∀ l ∈ r.antecedent, l.Holds w) → r.consequent.Holds w) := by
  simp only [Clause.Holds, mem_implication]
  constructor
  · rintro ⟨l, ⟨m, hm, rfl⟩ | hl, holds⟩ antecedent
    · exact absurd (antecedent m hm) (Literal.holds_negate.1 holds)
    · exact ⟨l, hl, holds⟩
  · intro holds
    by_cases antecedent : ∀ l ∈ r.antecedent, l.Holds w
    · obtain ⟨l, hl, holds⟩ := holds antecedent
      exact ⟨l, .inr hl, holds⟩
    · simp only [not_forall] at antecedent
      obtain ⟨m, hm, fails⟩ := antecedent
      exact ⟨m.negate, .inl ⟨m, hm, rfl⟩, Literal.holds_negate.2 fails⟩

theorem Ground.implication (ground : r.Ground) : r.implication.isGround = true := by
  refine List.all_eq_true.2 fun l hl => ?_
  rcases mem_implication.1 hl with ⟨m, hm, rfl⟩ | hl
  · exact List.all_eq_true.1 ground.antecedent m hm
  · exact List.all_eq_true.1 ground.consequent l hl

theorem ground_of_implication (ground : r.implication.isGround = true) : r.Ground := by
  have ground (l : Literal) (hl : l ∈ r.implication) : l.isGround = true := List.all_eq_true.1 ground l hl
  refine ⟨List.all_eq_true.2 fun l hl => ?_, List.all_eq_true.2 fun l hl => ?_⟩
  · exact ground l.negate (mem_implication.2 (.inl ⟨l, hl, rfl⟩))
  · exact ground l (mem_implication.2 (.inr hl))

end DefaultRule

theorem mem_implications {rules : OrdSet DefaultRule} {c : Clause} :
    c ∈ implications rules ↔ ∃ r ∈ rules, r.implication = c := by
  rw [implications, OrdSet.mem_ofList, List.mem_map]
  rfl

/-- Every non-empty set of the rules tolerates one of its own. -/
def Tolerant (rules : OrdSet DefaultRule) : Prop :=
  ∀ part : OrdSet DefaultRule, (∀ r ∈ part, r ∈ rules) → (∃ r, r ∈ part) →
    ∃ r ∈ part, r.Tolerated {s | s ∈ part}

theorem Tolerant.of_subset {rules part : OrdSet DefaultRule} (tolerant : Tolerant rules)
    (subset : ∀ r ∈ part, r ∈ rules) : Tolerant part :=
  fun rest among => tolerant rest fun r hr => subset r (among r hr)

inductive Ranked : List Rank → OrdSet DefaultRule → Prop
  | nil {rules : OrdSet DefaultRule} (empty : ∀ r, ¬ r ∈ rules) : Ranked [] rules
  | cons {rules : OrdSet DefaultRule} {rank : Rank} {ranks : List Rank} (nonempty : ∃ r, r ∈ rank)
    (mem_iff : ∀ r, r ∈ rank ↔ r ∈ rules ∧ r.Tolerated {s | s ∈ rules})
    (rest : Ranked ranks (rules.diff rank)) : Ranked (rank :: ranks) rules

def Ranks (rules : OrdSet DefaultRule) : Option (List Rank) → Prop
  | some ranks => Ranked ranks rules
  | none => ¬ Tolerant rules

def rulesFrom (ranks : List Rank) (i : Nat) : Set DefaultRule := {r | ∃ rank ∈ ranks.drop i, r ∈ rank}

theorem mem_rulesFrom {ranks : List Rank} {i : Nat} {r : DefaultRule} :
    r ∈ rulesFrom ranks i ↔ ∃ j rank, i ≤ j ∧ ranks[j]? = some rank ∧ r ∈ rank := by
  constructor
  · rintro ⟨rank, hrank, hr⟩
    obtain ⟨k, hk⟩ := List.mem_iff_getElem?.1 hrank
    exact ⟨i + k, rank, Nat.le_add_right i k, by rwa [List.getElem?_drop] at hk, hr⟩
  · rintro ⟨j, rank, le, hj, hr⟩
    refine ⟨rank, List.mem_iff_getElem?.2 ⟨j - i, ?_⟩, hr⟩
    rwa [List.getElem?_drop, Nat.add_sub_cancel' le]

/-- Ranks divide the rules, and each holds those tolerated by its own and the later ones. -/
structure Divides (ranks : List Rank) (rules : OrdSet DefaultRule) : Prop where
  nonempty : ∀ rank ∈ ranks, ∃ r, r ∈ rank
  disjoint : ranks.Pairwise fun rank later => ∀ r ∈ rank, ¬ r ∈ later
  mem_iff : ∀ r, r ∈ rules ↔ ∃ rank ∈ ranks, r ∈ rank
  tolerated : ∀ i rank, ranks[i]? = some rank →
    ∀ r, r ∈ rank ↔ r ∈ rulesFrom ranks i ∧ r.Tolerated (rulesFrom ranks i)

namespace Ranked

variable {rules : OrdSet DefaultRule} {ranks ranks' : List Rank}

theorem tolerant (ranked : Ranked ranks rules) : Tolerant rules := by
  induction ranked with
  | nil empty => exact fun part subset ⟨r, hr⟩ => absurd (subset r hr) (empty r)
  | @cons rules rank ranks _ mem_iff rest ih =>
    intro part subset nonempty
    by_cases first : ∃ r ∈ part, r ∈ rank
    · obtain ⟨r, hr, ranked⟩ := first
      exact ⟨r, hr, ((mem_iff r).1 ranked).2.of_subset subset⟩
    · refine ih part (fun r hr => OrdSet.mem_diff.2 ⟨subset r hr, fun ranked => ?_⟩) nonempty
      exact first ⟨r, hr, ranked⟩

theorem unique (ranked : Ranked ranks rules) (ranked' : Ranked ranks' rules) : ranks = ranks' := by
  induction ranked generalizing ranks' with
  | nil empty =>
    cases ranked' with
    | nil => rfl
    | cons nonempty mem_iff _ =>
      obtain ⟨r, hr⟩ := nonempty
      exact absurd ((mem_iff r).1 hr).1 (empty r)
  | cons nonempty mem_iff _ ih =>
    cases ranked' with
    | nil empty =>
      obtain ⟨r, hr⟩ := nonempty
      exact absurd ((mem_iff r).1 hr).1 (empty r)
    | cons _ mem_iff' rest' =>
      obtain rfl := OrdSet.ext fun r => (mem_iff r).trans (mem_iff' r).symm
      rw [ih rest']

theorem length_le (ranked : Ranked ranks rules) : ranks.length ≤ rules.size := by
  induction ranked with
  | nil => exact Nat.zero_le _
  | cons nonempty mem_iff _ ih =>
    obtain ⟨r, hr⟩ := nonempty
    exact Nat.succ_le_of_lt (Nat.lt_of_le_of_lt ih (OrdSet.size_diff_lt ((mem_iff r).1 hr).1 hr))

theorem divides (ranked : Ranked ranks rules) : Divides ranks rules := by
  induction ranked with
  | nil empty => exact ⟨nofun, .nil, fun r => iff_of_false (empty r) (by simp), by simp⟩
  | @cons rules rank ranks nonempty mem_iff _ ih =>
    have mem_rules (r : DefaultRule) : r ∈ rules ↔ ∃ p ∈ rank :: ranks, r ∈ p := by
      simp only [List.mem_cons, exists_eq_or_imp]
      rw [← ih.mem_iff, OrdSet.mem_diff]
      constructor
      · exact fun hr => (em (r ∈ rank)).imp_right fun later => ⟨hr, later⟩
      · exact fun hr => hr.elim (fun first => ((mem_iff r).1 first).1) And.left
    refine ⟨List.forall_mem_cons.2 ⟨nonempty, ih.nonempty⟩,
      List.pairwise_cons.2 ⟨fun later hlater r first ranked => ?_, ih.disjoint⟩, mem_rules, fun i p hp => ?_⟩
    · exact (OrdSet.mem_diff.1 ((ih.mem_iff r).2 ⟨later, hlater, ranked⟩)).2 first
    · cases i with
      | zero =>
        obtain rfl : rank = p := by simpa using hp
        have all : rulesFrom (rank :: ranks) 0 = {r | r ∈ rules} := Set.ext fun r => (mem_rules r).symm
        rw [all]
        exact mem_iff
      | succ i => exact ih.tolerated i p (by simpa using hp)

end Ranked

theorem Ranks.unique {rules : OrdSet DefaultRule} {answer answer' : Option (List Rank)}
    (ranks : Ranks rules answer) (ranks' : Ranks rules answer') : answer = answer' := by
  cases answer with
  | some found =>
    cases answer' with
    | some found' => exact congrArg some (Ranked.unique ranks ranks')
    | none => exact absurd (Ranked.tolerant ranks) ranks'
  | none =>
    cases answer' with
    | some found' => exact absurd (Ranked.tolerant ranks') ranks
    | none => rfl

section Queries

variable {settings : Settings} {rules : OrdSet DefaultRule}
  (probable : settings.Probable) (ground : ∀ r ∈ rules, r.Ground)

include probable

theorem tolerated_within {solver : Solver} (ready : solver.Ready settings (implications rules).toList [])
    {rs : List DefaultRule} (has : ∀ r ∈ rs, ∀ l ∈ r.evidence.toList, solver.numbering.Has l) :
    (tolerated solver rs).Meets (fun found => ∀ r, r ∈ found ↔ r ∈ rs ∧ r.Tolerated {s | s ∈ rules})
      settings.CutsShort := by
  induction rs generalizing solver with
  | nil => exact .pure fun r => by simp
  | cons r rs ih =>
    refine Query.nextWatch_meets.bind fun watch _ => ?_
    obtain ⟨result, solver', run, same, ready', settled⟩ :=
      ready.solveAssuming_within probable (has r List.mem_cons_self) watch
    rw [run]
    refine (Query.ofExcept_meets settled).bind fun witness settles => ?_
    rw [← same] at has
    refine (ih ready' fun s hs => has s (List.mem_cons_of_mem r hs)).bind fun others found => .pure ?_
    have tolerated : witness.isSome = true ↔ r.Tolerated {s | s ∈ rules} := by
      rw [settles.isSome_iff]
      refine exists_congr fun w => and_congr_left fun _ => ?_
      simp only [OrdSet.mem_toList, mem_implications, forall_exists_index, and_imp,
        forall_apply_eq_imp_iff₂, Set.mem_ofPred_eq]
    intro s
    split
    · next holds =>
      rw [List.mem_cons, found, List.mem_cons, or_and_right]
      exact or_congr_left (iff_self_and.2 fun same => same ▸ tolerated.1 holds)
    · next fails =>
      rw [found, List.mem_cons, or_and_right]
      exact (or_iff_right fun ⟨same, holds⟩ => fails (tolerated.2 (same ▸ holds))).symm

include ground

theorem rankUpTo_within {fuel : Nat} (enough : rules.size ≤ fuel) :
    (rankUpTo settings fuel rules).Meets (Ranks rules) settings.CutsShort := by
  induction fuel generalizing rules with
  | zero =>
    have none : rules.toList = [] := List.length_eq_zero_iff.1 (Nat.le_zero.1 enough)
    exact .pure (.nil fun r hr => by rw [← OrdSet.mem_toList, none] at hr; cases hr)
  | succ fuel ih =>
    rw [rankUpTo]
    split
    · next empty => exact .pure (.nil (OrdSet.isEmpty_iff.1 empty))
    next nonempty =>
    have ground_implications : ∀ c ∈ (implications rules).toList, c.isGround = true := by
      intro c hc
      obtain ⟨r, hr, rfl⟩ := mem_implications.1 hc
      exact (ground r hr).implication
    obtain ⟨solver, made, ready, has⟩ :=
      Solver.new_spec (implications rules).toList [] settings ground_implications nofun nofun
    -- The implication of a rule has the atoms of its antecedent.
    have has_antecedent (r : DefaultRule) (hr : r ∈ rules.toList) (l : Literal)
        (hl : l ∈ r.evidence.toList) : solver.numbering.Has l := by
      refine (has l).2 ⟨r.implication, List.mem_append_left _ (mem_implications.2 ⟨r, hr, rfl⟩), ?_⟩
      exact ⟨l.negate, DefaultRule.mem_implication.2 (.inl ⟨l, hl, rfl⟩), rfl⟩
    rw [made, Query.ofExcept_ok, pure_bind]
    refine (tolerated_within probable ready has_antecedent).bind fun found found_iff => ?_
    have mem_iff (r : DefaultRule) : r ∈ OrdSet.ofList found ↔ r ∈ rules ∧ r.Tolerated {s | s ∈ rules} :=
      OrdSet.mem_ofList.trans (found_iff r)
    dsimp only
    split
    · next empty =>
      refine .pure fun tolerant => ?_
      rw [OrdSet.isEmpty_iff] at nonempty
      obtain ⟨r, hr, tolerated⟩ := tolerant rules (fun _ => id) (not_forall_not.1 nonempty)
      exact OrdSet.isEmpty_iff.1 empty r ((mem_iff r).2 ⟨hr, tolerated⟩)
    · next nonempty =>
      rw [OrdSet.isEmpty_iff] at nonempty
      obtain ⟨r, hr⟩ := not_forall_not.1 nonempty
      have fewer := OrdSet.size_diff_lt ((mem_iff r).1 hr).1 hr
      refine (ih (fun s hs => ground s (OrdSet.mem_diff.1 hs).1) (by omega)).bind fun answer ranks => .pure ?_
      cases answer with
      | some ranks' => exact .cons ⟨r, hr⟩ mem_iff ranks
      | none =>
        exact fun tolerant => ranks (tolerant.of_subset fun s hs => (OrdSet.mem_diff.1 hs).1)

theorem ranking_within : (ranking settings rules).Meets (Ranks rules) settings.CutsShort :=
  rankUpTo_within probable ground (Nat.le_refl _)

theorem ranking_meets : (ranking settings rules).Meets (Ranks rules) settings.Hinders :=
  (ranking_within probable ground).imp_error fun _ cut => cut.hinders

end Queries

theorem ranking_eq_throw {rules : OrdSet DefaultRule} (not_ground : ¬ ∀ r ∈ rules, r.Ground) :
    ∃ e, ∀ settings, ranking settings rules = throw e := by
  simp only [not_forall] at not_ground
  obtain ⟨r, hr, not_ground⟩ := not_ground
  have nonempty : ¬ rules.isEmpty = true := fun empty => OrdSet.isEmpty_iff.1 empty r hr
  obtain ⟨fuel, size⟩ : ∃ fuel, rules.size = fuel + 1 :=
    Nat.exists_eq_succ_of_ne_zero fun zero => OrdSet.size_eq_zero.1 zero r hr
  cases made : Solver.new (implications rules).toList [] {} with
  | ok solver =>
    have ground := (Solver.of_new made).1 r.implication (mem_implications.2 ⟨r, hr, rfl⟩)
    exact absurd (DefaultRule.ground_of_implication ground) not_ground
  | error e =>
    refine ⟨.engine e, fun settings => ?_⟩
    rw [ranking, size, rankUpTo, if_neg nonempty, Solver.new_withSettings _ _ {}, made]
    rfl

theorem ranking_meets_any {settings : Settings} {rules : OrdSet DefaultRule} (probable : settings.Probable) :
    (ranking settings rules).Meets (Ranks rules) fun _ => True := by
  by_cases ground : ∀ r ∈ rules, r.Ground
  · exact (ranking_meets probable ground).imp_error fun _ _ => trivial
  · obtain ⟨e, failed⟩ := ranking_eq_throw ground
    rw [failed]
    exact .throw trivial

theorem exists_ranks {rules : OrdSet DefaultRule} (ground : ∀ r ∈ rules, r.Ground) :
    ∃ answer, Ranks rules answer := by
  have meets := ranking_meets Settings.probable_default ground
  obtain ⟨answer, _, _, _, ranks⟩ := (meets.unhindered rfl).result (Session.truthful_new fun _ _ => 0)
  exact ⟨answer, ranks⟩

theorem exists_ranked {rules : OrdSet DefaultRule} (ground : ∀ r ∈ rules, r.Ground)
    (tolerant : Tolerant rules) : ∃ ranks, Ranked ranks rules := by
  obtain ⟨answer, ranks⟩ := exists_ranks ground
  cases answer with
  | some found => exact ⟨found, ranks⟩
  | none => exact absurd tolerant ranks

/-- Rankings are exact: they divide the rules by tolerance, there is one just for tolerant rules, and no
literal of an antecedent is ever unknown to the solver. -/
theorem ranking_exact (settings : Settings) (probable : settings.Probable) (rules : OrdSet DefaultRule)
    (ground : ∀ r ∈ rules, r.Ground) :
    ∃ answer, (ranking settings rules).Answers settings answer ∧
      (∀ ranks, answer = some ranks → Divides ranks rules) ∧
      (answer.isSome = true ↔ Tolerant rules) ∧
      ∀ s : Session, s.Truthful → ∀ l,
        ((ranking settings rules).run s).1 ≠ .error (.engine (.unindexedLiteral l)) := by
  obtain ⟨answer, ranks⟩ := exists_ranks ground
  have meets := ranking_meets probable ground
  refine ⟨answer, meets.answers fun _ ranks' => ranks'.unique ranks, ?_, ?_, fun s truthful l failed => ?_⟩
  · rintro found rfl
    exact Ranked.divides ranks
  · cases answer with
    | some found => exact iff_of_true rfl (Ranked.tolerant ranks)
    | none => exact iff_of_false nofun ranks
  · rcases meets s truthful with ⟨_, _, run, -⟩ | ⟨e, _, run, -, hinders⟩
    · rw [run] at failed
      cases failed
    · rw [run] at failed
      cases failed
      cases hinders

def birds : OrdSet DefaultRule :=
  .ofList [⟨.unit ⟨"bird", [], true⟩, .unit ⟨"flies", [], true⟩⟩,
    ⟨.unit ⟨"penguin", [], true⟩, .unit ⟨"bird", [], true⟩⟩,
    ⟨.unit ⟨"penguin", [], true⟩, .unit ⟨"flies", [], false⟩⟩]

theorem ranking_exact_birds : ∃ ranks s', (ranking {} birds).run {} = (.ok (some ranks), s') ∧
    Divides ranks birds ∧ ranks.length = 2 ∧ Tolerant birds := by
  obtain ⟨answer, answers, divides, exact, -⟩ := ranking_exact {} Settings.probable_default birds
    (by decide +kernel)
  obtain ⟨s', run, -⟩ := answers.run rfl (Session.truthful_new _)
  have two : (((ranking {} birds).run {}).1.map fun found => found.map List.length) = .ok (some 2) := by
    decide +kernel
  rw [run] at two
  obtain ⟨ranks, rfl, length⟩ := Option.map_eq_some_iff.1 (Except.ok.inj two)
  exact ⟨ranks, s', run, divides ranks rfl, length, exact.1 rfl⟩

def swimmers : OrdSet DefaultRule :=
  .ofList [⟨.unit ⟨"bird", [], true⟩, .ofList [⟨"flies", [], true⟩, ⟨"swims", [], true⟩]⟩]

/-- There is a ranking, but with a lean that is no number the first free decision fails. -/
theorem ranking_undecided : Settings.undecided.Reached ∧ Settings.undecided.solveLimit? = none ∧
    (∀ r ∈ swimmers, r.Ground) ∧ Tolerant swimmers ∧
    ((ranking .undecided swimmers).run {}).1 = .error (.fault .improbable) := by
  have ground : ∀ r ∈ swimmers, r.Ground := by decide +kernel
  have ranks : Ranks swimmers (some [swimmers]) :=
    (ranking_meets Settings.probable_default ground).of_run (Session.truthful_new fun _ _ => 0)
      (Prod.ext (by decide +kernel) rfl)
  exact ⟨Settings.reached_undecided, rfl, ground, Ranked.tolerant ranks, by decide +kernel⟩

end Defeasible
