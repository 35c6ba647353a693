import Defeasible.Proofs.Closure.Ranking
import Defeasible.Proofs.Theory.Consequence
import Defeasible.Proofs.Theory.Strata

/-! Rankings and theories. In the theory of a ranking the cut at the level of a rank holds the implications of
this rank and the later ones, and with these the antecedent of each rule of the rank is consistent. So no rule
prefers a level above its own, and every rule is implied. Conversely, rules that are implied by any theory have
a ranking: of each few, one that prefers the lowest level is tolerated. -/

namespace Defeasible

open Query (Answers)

def closureOf (settings : Settings) (ranks : List Rank) : Theory :=
  (Theory.ofStrata (ranks.map implications)).withSettings settings

def Closes (settings : Settings) (rules : OrdSet DefaultRule) (closure : Option Theory) : Prop :=
  ∃ answer, Ranks rules answer ∧ closure = answer.map (closureOf settings)

theorem Closes.unique {settings : Settings} {rules : OrdSet DefaultRule} {closure closure' : Option Theory}
    (closes : Closes settings rules closure) (closes' : Closes settings rules closure') :
    closure = closure' := by
  obtain ⟨answer, ranks, rfl⟩ := closes
  obtain ⟨answer', ranks', rfl⟩ := closes'
  rw [ranks.unique ranks']

theorem rationalClosure_meets {settings : Settings} {rules : OrdSet DefaultRule}
    (probable : settings.Probable) (ground : ∀ r ∈ rules, r.Ground) :
    (rationalClosure settings rules).Meets (Closes settings rules) settings.Hinders :=
  (ranking_meets probable ground).bind fun answer ranks => .pure ⟨answer, ranks, rfl⟩

theorem rationalClosure_meets_any {settings : Settings} {rules : OrdSet DefaultRule}
    (probable : settings.Probable) :
    (rationalClosure settings rules).Meets (Closes settings rules) fun _ => True :=
  (ranking_meets_any probable).bind fun answer ranks => .pure ⟨answer, ranks, rfl⟩

theorem regular_closureOf (settings : Settings) (ranks : List Rank) : (closureOf settings ranks).Regular :=
  (Theory.regular_ofStrata _).withSettings settings

section Levels

variable {settings : Settings} {ranks : List Rank} {rules : OrdSet DefaultRule} {rank : Rank}
  {evidence : Evidence} {c : Clause} {i : Nat} {w : World}

theorem mem_of_mem_closureOf {l : Level} (hl : l ∈ (closureOf settings ranks).levels) (hc : c ∈ l.clauses) :
    ∃ rank ∈ ranks, ∃ r ∈ rank, r.implication = c := by
  obtain ⟨s, hs, hc⟩ := Theory.mem_of_mem_ofStrata hl hc
  obtain ⟨rank, hrank, rfl⟩ := List.mem_map.1 hs
  exact ⟨rank, hrank, mem_implications.1 hc⟩

theorem hardRules_closureOf (settings : Settings) (ranks : List Rank) :
    (closureOf settings ranks).hardRules = ∅ :=
  Theory.hardRules_ofLevels _

theorem ground_closureOf (settings : Settings) (divides : Divides ranks rules) (ground : ∀ r ∈ rules, r.Ground) :
    ∀ c ∈ (closureOf settings ranks).clauses, c.isGround = true := by
  intro c hc
  rcases Theory.mem_clauses.1 hc with ⟨l, hl, hc⟩ | hc
  · obtain ⟨rank, hrank, r, hr, rfl⟩ := mem_of_mem_closureOf hl hc
    exact (ground r ((divides.mem_iff r).2 ⟨rank, hrank, hr⟩)).implication
  · rw [hardRules_closureOf] at hc
    exact absurd hc (OrdSet.not_mem_empty c)

variable (spread : Necessity.Spread ranks.length) (divides : Divides ranks rules)

include divides in
theorem nonempty_implications (hrank : rank ∈ ranks) : (implications rank).isEmpty = false := by
  obtain ⟨r, hr⟩ := divides.nonempty rank hrank
  rw [← Bool.not_eq_true, OrdSet.isEmpty_iff]
  exact fun none => none _ (mem_implications.2 ⟨r, hr, rfl⟩)

include spread divides

theorem mem_levels_closureOf {l : Level} :
    l ∈ (closureOf settings ranks).levels ↔
      ∃ i rank, ranks[i]? = some rank ∧ l = ⟨.ofLevel i ranks.length, implications rank⟩ := by
  have levels : (closureOf settings ranks).levels =
      ((ranks.map implications).zipIdx.map fun p => ⟨.ofLevel p.2 (ranks.map implications).length, p.1⟩) := by
    refine Theory.levels_ofStrata (by rwa [List.length_map]) ?_
    exact List.forall_mem_map.2 fun rank hrank => nonempty_implications divides hrank
  rw [levels, List.length_map, List.mem_map]
  constructor
  · rintro ⟨⟨clauses, i⟩, hp, rfl⟩
    rw [List.mk_mem_zipIdx_iff_getElem?, List.getElem?_map] at hp
    obtain ⟨rank, hrank, rfl⟩ := Option.map_eq_some_iff.1 hp
    exact ⟨i, rank, hrank, rfl⟩
  · rintro ⟨i, rank, hrank, rfl⟩
    refine ⟨(implications rank, i), ?_, rfl⟩
    rw [List.mk_mem_zipIdx_iff_getElem?, List.getElem?_map, hrank]
    rfl

theorem mem_weights_closureOf {n : Necessity} :
    n ∈ (closureOf settings ranks).weights ↔ ∃ i < ranks.length, n = .ofLevel i ranks.length := by
  rw [Theory.weights, List.mem_map]
  constructor
  · rintro ⟨l, hl, rfl⟩
    obtain ⟨i, rank, hrank, rfl⟩ := (mem_levels_closureOf spread divides).1 hl
    exact ⟨i, (List.getElem?_eq_some_iff.1 hrank).1, rfl⟩
  · rintro ⟨i, hi, rfl⟩
    have hl : ⟨.ofLevel i ranks.length, implications ranks[i]⟩ ∈ (closureOf settings ranks).levels :=
      (mem_levels_closureOf spread divides).2 ⟨i, ranks[i], List.getElem?_eq_getElem hi, rfl⟩
    exact ⟨_, hl, rfl⟩

theorem mem_cut_closureOf (hi : i < ranks.length) :
    c ∈ (closureOf settings ranks).cut (.ofLevel i ranks.length) ↔
      ∃ r ∈ rulesFrom ranks i, r.implication = c := by
  rw [Theory.mem_cut, hardRules_closureOf, or_iff_left (OrdSet.not_mem_empty c)]
  constructor
  · rintro ⟨l, hl, le, hc⟩
    obtain ⟨j, rank, hj, rfl⟩ := (mem_levels_closureOf spread divides).1 hl
    obtain ⟨r, hr, rfl⟩ := mem_implications.1 hc
    have lt := (List.getElem?_eq_some_iff.1 hj).1
    exact ⟨r, mem_rulesFrom.2 ⟨j, rank, (spread.le_iff hi lt).1 le, hj, hr⟩, rfl⟩
  · rintro ⟨r, hr, rfl⟩
    obtain ⟨j, rank, le, hj, hr⟩ := mem_rulesFrom.1 hr
    have lt := (List.getElem?_eq_some_iff.1 hj).1
    exact ⟨_, (mem_levels_closureOf spread divides).2 ⟨j, rank, hj, rfl⟩, (spread.le_iff hi lt).2 le,
      mem_implications.2 ⟨r, hr, rfl⟩⟩

theorem modelAt_closureOf (hi : i < ranks.length) :
    (closureOf settings ranks).ModelAt (.ofLevel i ranks.length) evidence w ↔
      (∀ r ∈ rulesFrom ranks i, r.implication.Holds w) ∧ ∀ l ∈ evidence, l.Holds w := by
  constructor
  · exact fun model => ⟨fun r hr => model.cut _ ((mem_cut_closureOf spread divides hi).2 ⟨r, hr, rfl⟩),
      model.evidence⟩
  · rintro ⟨implications, holds⟩
    refine ⟨fun c hc => ?_, holds⟩
    obtain ⟨r, hr, rfl⟩ := (mem_cut_closureOf spread divides hi).1 hc
    exact implications r hr

theorem degrees_closureOf (hi : i < ranks.length) :
    (closureOf settings ranks).degrees = (closureOf settings ranks).weights := by
  refine if_neg fun empty => ?_
  have mem : .ofLevel i ranks.length ∈ (closureOf settings ranks).weights :=
    (mem_weights_closureOf spread divides).2 ⟨i, hi, rfl⟩
  rw [List.isEmpty_iff.1 empty] at mem
  cases mem

theorem consistentAt_closureOf (hrank : ranks[i]? = some rank) {r : DefaultRule} (hr : r ∈ rank) :
    (closureOf settings ranks).ConsistentAt (.ofLevel i ranks.length) r.evidence := by
  obtain ⟨w, model⟩ := ((divides.tolerated i rank hrank r).1 hr).2
  exact ⟨w, (modelAt_closureOf spread divides (List.getElem?_eq_some_iff.1 hrank).1).2 model⟩

theorem entails_closureOf {r : DefaultRule} (hr : r ∈ rules) :
    (closureOf settings ranks).Entails r.evidence r.consequent := by
  obtain ⟨rank, hrank, hr⟩ := (divides.mem_iff r).1 hr
  obtain ⟨i, hi⟩ := List.mem_iff_getElem?.1 hrank
  have lt := (List.getElem?_eq_some_iff.1 hi).1
  have own : .ofLevel i ranks.length ∈ (closureOf settings ranks).degrees := by
    rw [degrees_closureOf spread divides lt]
    exact (mem_weights_closureOf spread divides).2 ⟨i, lt, rfl⟩
  have consistent : (closureOf settings ranks).ConsistentAt (.ofLevel i ranks.length) r.evidence :=
    consistentAt_closureOf spread divides hi hr
  obtain ⟨n, preferred⟩ := Theory.exists_preferred own consistent
  refine .inr ⟨n, preferred, fun w model => DefaultRule.holds_implication.1 ?_ model.evidence⟩
  have above := model.mono (preferred.le own consistent)
  exact ((modelAt_closureOf spread divides lt).1 above).1 r (mem_rulesFrom.2 ⟨i, rank, Nat.le_refl i, hi, hr⟩)

theorem preferred_closureOf (settings : Settings) (some : ∃ r, r ∈ rules) :
    ∃ n, (closureOf settings ranks).minNecessity? = .some n ∧ (closureOf settings ranks).Preferred ∅ n := by
  obtain ⟨r, hr⟩ := some
  obtain ⟨rank, hrank, -⟩ := (divides.mem_iff r).1 hr
  have first : 0 < ranks.length := List.length_pos_of_mem hrank
  obtain ⟨s, hs⟩ := divides.nonempty ranks[0] (List.getElem_mem first)
  have consistent : (closureOf settings ranks).ConsistentAt (.ofLevel 0 ranks.length) s.evidence :=
    consistentAt_closureOf spread divides (List.getElem?_eq_getElem first) hs
  have weight : .ofLevel 0 ranks.length ∈ (closureOf settings ranks).weights :=
    (mem_weights_closureOf spread divides).2 ⟨0, first, rfl⟩
  have least (m : Necessity) (hm : m ∈ (closureOf settings ranks).weights) :
      .ofLevel 0 ranks.length ≤ m := by
    obtain ⟨i, hi, rfl⟩ := (mem_weights_closureOf spread divides).1 hm
    exact (spread.le_iff first hi).2 (Nat.zero_le i)
  have degrees : (closureOf settings ranks).degrees = (closureOf settings ranks).weights :=
    degrees_closureOf spread divides first
  refine ⟨.ofLevel 0 ranks.length,
    Theory.minNecessity?_eq_some (regular_closureOf settings ranks).ascending weight least, ?_⟩
  refine ⟨degrees ▸ weight, consistent.of_subset fun l hl => absurd hl (OrdSet.not_mem_empty l), ?_⟩
  exact fun m hm lt => absurd lt (Necessity.not_lt.2 (least m (degrees ▸ hm)))

end Levels

theorem tolerant_of_entails {t : Theory} {rules : OrdSet DefaultRule}
    (implied : ∀ r ∈ rules, t.Entails r.evidence r.consequent)
    (can_fail : ∀ r ∈ rules, ¬ ∀ w, r.consequent.Holds w) : Tolerant rules := by
  intro part subset ⟨r, hr⟩
  have prefers (r : DefaultRule) (hr : r ∈ part) : ∃ n, t.Preferred r.evidence n := by
    rcases implied r (subset r hr) with always | ⟨n, preferred, -⟩
    · exact absurd always (can_fail r (subset r hr))
    · exact ⟨n, preferred⟩
  obtain ⟨n, preferred⟩ := prefers r hr
  let lower := measure fun p : DefaultRule × Necessity => p.2.bits.toNat
  obtain ⟨⟨s, n⟩, ⟨hs, preferred⟩, least⟩ :=
    lower.wf.has_min {p | p.1 ∈ part ∧ t.Preferred p.1.evidence p.2} ⟨(r, n), hr, preferred⟩
  obtain ⟨w, model⟩ := preferred.consistent
  refine ⟨s, hs, w, fun q hq => DefaultRule.holds_implication.2 fun antecedent => ?_, model.evidence⟩
  -- A rule with its antecedent true in the model prefers no higher level, and by the choice of `s` no lower.
  have model' : t.ModelAt n q.evidence w := ⟨model.cut, antecedent⟩
  obtain ⟨m, preferred'⟩ := prefers q hq
  have not_lt : ¬ m < n := fun lt => least (q, m) ⟨hq, preferred'⟩ (UInt64.lt_iff_toNat_lt.1 lt)
  obtain rfl : m = n :=
    Necessity.eq_of_not_lt not_lt (Necessity.not_lt.2 (preferred'.le preferred.mem ⟨w, model'⟩))
  exact preferred'.entails_iff.1 (implied q (subset q hq)) w model'

/-- Every rule is a consequence of the closure of the rules, and without evidence the closure prefers its
lowest level. -/
theorem closure_implies (settings : Settings) (probable : settings.Probable) (rules : OrdSet DefaultRule)
    (ground : ∀ r ∈ rules, r.Ground) (spread : ∀ count ≤ rules.size, Necessity.Spread count)
    (s s' : Session) (truthful : s.Truthful) (t : Theory)
    (closed : (rationalClosure settings rules).run s = (.ok (some t), s')) :
    (∀ r ∈ rules, (t.implies r.evidence r.consequent).Answers settings true) ∧
      ((∃ r, r ∈ rules) → ∃ n, t.minNecessity? = some n ∧ (t.preferredLevel ∅).Answers settings (some n)) := by
  obtain ⟨answer, ranks, made⟩ := (rationalClosure_meets probable ground).of_run truthful closed
  obtain ⟨ranks', rfl, rfl⟩ := Option.map_eq_some_iff.1 made.symm
  have ranked : Ranked ranks' rules := ranks
  have divides := ranked.divides
  have spread := spread ranks'.length ranked.length_le
  have regular := regular_closureOf settings ranks'
  have ground_clauses := ground_closureOf settings divides ground
  have solves : (closureOf settings ranks').Solves settings.Hinders := Theory.solves_within probable
  refine ⟨fun r hr => ?_, fun some => ?_⟩
  · have ground_rule := ground r hr
    refine (Theory.implies_meets regular ground_clauses solves
      (List.all_eq_true.1 ground_rule.antecedent) ground_rule.consequent).answers fun b entails => ?_
    exact entails.2 (entails_closureOf spread divides hr)
  · obtain ⟨n, least, preferred⟩ := preferred_closureOf spread divides settings some
    refine ⟨n, least, ?_⟩
    refine (Theory.preferredLevel_meets regular ground_clauses solves
      fun l hl => absurd hl (OrdSet.not_mem_empty l)).answers fun level found => (found n).2 preferred

theorem closure_implies_birds : ∃ t s', (rationalClosure {} birds).run {} = (.ok (some t), s') ∧
    ∀ r ∈ birds, ∃ u, (t.implies r.evidence r.consequent).run {} = (.ok true, u) := by
  have found : ((rationalClosure {} birds).run {}).1.toOption.join.isSome = true := by decide +kernel
  rcases closed : (rationalClosure {} birds).run {} with ⟨_ | _ | t, s'⟩
  · rw [closed] at found
    cases found
  · rw [closed] at found
    cases found
  · refine ⟨t, s', rfl, fun r hr => ?_⟩
    obtain ⟨implied, -⟩ := closure_implies {} Settings.probable_default birds (by decide +kernel)
      (by decide +kernel) {} s' (Session.truthful_new _) t closed
    obtain ⟨u, run, -⟩ := (implied r hr).run rfl (Session.truthful_new _)
    exact ⟨u, run⟩

end Defeasible
