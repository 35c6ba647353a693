import Defeasible.Proofs.Closure.Ranking

/-! The ranking by tolerance is the least of all admissible ones: no other numbers that let each rule be
tolerated by the rules numbered no lower give any rule a lower number. So more rules never lower a rank. -/

namespace Defeasible

variable {ranks fewer : List Rank} {rules part : OrdSet DefaultRule} {number : DefaultRule → Nat}
  {r : DefaultRule}

def rankOf (ranks : List Rank) (r : DefaultRule) : Nat := ranks.findIdx fun rank => rank.has r

def Admissible (rules : OrdSet DefaultRule) (number : DefaultRule → Nat) : Prop :=
  ∀ r ∈ rules, r.Tolerated {s | s ∈ rules ∧ number r ≤ number s}

theorem Admissible.of_subset (admissible : Admissible rules number) (subset : ∀ r ∈ part, r ∈ rules) :
    Admissible part number :=
  fun r hr => (admissible r (subset r hr)).of_subset fun s hs => ⟨subset s hs.1, hs.2⟩

theorem rankOf_cons (rank : Rank) (ranks : List Rank) (r : DefaultRule) :
    rankOf (rank :: ranks) r = if r ∈ rank then 0 else rankOf ranks r + 1 := by
  rw [rankOf, List.findIdx_cons]
  by_cases first : r ∈ rank
  · rw [OrdSet.has_eq_true.2 first, if_pos first]
    rfl
  · rw [Bool.eq_false_iff.2 fun has => first (OrdSet.has_eq_true.1 has), if_neg first]
    rfl

namespace Ranked

variable (ranked : Ranked ranks rules)

include ranked

theorem getElem?_rankOf (hr : r ∈ rules) : ∃ rank, ranks[rankOf ranks r]? = some rank ∧ r ∈ rank := by
  obtain ⟨rank, hrank, mem⟩ := (ranked.divides.mem_iff r).1 hr
  have lt : rankOf ranks r < ranks.length :=
    List.findIdx_lt_length_of_exists ⟨rank, hrank, OrdSet.has_eq_true.2 mem⟩
  have has : ranks[rankOf ranks r].has r = true := List.findIdx_getElem (w := lt)
  exact ⟨ranks[rankOf ranks r], List.getElem?_eq_getElem lt, OrdSet.has_eq_true.1 has⟩

theorem admissible : Admissible rules (rankOf ranks) := by
  intro r hr
  obtain ⟨rank, hrank, mem⟩ := ranked.getElem?_rankOf hr
  refine ((ranked.divides.tolerated _ rank hrank r).1 mem).2.of_subset fun s hs => ?_
  obtain ⟨rank', hrank', mem'⟩ := ranked.getElem?_rankOf hs.1
  exact mem_rulesFrom.2 ⟨_, rank', hs.2, hrank', mem'⟩

theorem rankOf_le (admissible : Admissible rules number) : ∀ r ∈ rules, rankOf ranks r ≤ number r := by
  induction ranked generalizing number with
  | nil empty => exact fun r hr => absurd hr (empty r)
  | @cons rules rank ranks _ mem_iff _ ih =>
    have positive (r : DefaultRule) (hr : r ∈ rules.diff rank) : 0 < number r := by
      obtain ⟨hr, later⟩ := OrdSet.mem_diff.1 hr
      refine Nat.pos_of_ne_zero fun zero => later ((mem_iff r).2 ⟨hr, ?_⟩)
      exact (admissible r hr).of_subset fun s hs => ⟨hs, zero ▸ Nat.zero_le _⟩
    have lowered : Admissible (rules.diff rank) fun r => number r - 1 := by
      intro r hr
      refine (admissible r (OrdSet.mem_diff.1 hr).1).of_subset fun s hs => ⟨(OrdSet.mem_diff.1 hs.1).1, ?_⟩
      have le : number r - 1 ≤ number s - 1 := hs.2
      have := positive s hs.1
      omega
    intro r hr
    rw [rankOf_cons]
    split
    · exact Nat.zero_le _
    · next later =>
      have hr := OrdSet.mem_diff.2 ⟨hr, later⟩
      have := ih lowered r hr
      have := positive r hr
      omega

theorem rankOf_mono (ranked' : Ranked fewer part) (subset : ∀ r ∈ part, r ∈ rules) :
    ∀ r ∈ part, rankOf fewer r ≤ rankOf ranks r :=
  ranked'.rankOf_le (ranked.admissible.of_subset subset)

end Ranked

/-- The ranking is admissible and the least such, and ranks no rule lower than a ranking of fewer rules. -/
theorem ranking_least (settings : Settings) (probable : settings.Probable) (rules : OrdSet DefaultRule)
    (ground : ∀ r ∈ rules, r.Ground) (s s' : Session) (truthful : s.Truthful) (ranks : List Rank)
    (found : (ranking settings rules).run s = (.ok (some ranks), s')) :
    (∀ r ∈ rules, ∃ rank, ranks[rankOf ranks r]? = some rank ∧ r ∈ rank) ∧
      Admissible rules (rankOf ranks) ∧
      (∀ number, Admissible rules number → ∀ r ∈ rules, rankOf ranks r ≤ number r) ∧
      ∀ part : OrdSet DefaultRule, (∀ r ∈ part, r ∈ rules) →
        ∀ (other : Settings) (u u' : Session) (fewer : List Rank), other.Probable → u.Truthful →
          (ranking other part).run u = (.ok (some fewer), u') →
            ∀ r ∈ part, rankOf fewer r ≤ rankOf ranks r := by
  have ranked : Ranked ranks rules := (ranking_meets probable ground).of_run truthful found
  refine ⟨fun r => ranked.getElem?_rankOf, ranked.admissible, fun _ => ranked.rankOf_le, ?_⟩
  intro part subset other u u' fewer probable' truthful' found'
  have ranked' : Ranked fewer part :=
    (ranking_meets probable' fun r hr => ground r (subset r hr)).of_run truthful' found'
  exact ranked.rankOf_mono ranked' subset

theorem ranking_least_birds : ∃ ranks s', (ranking {} birds).run {} = (.ok (some ranks), s') ∧
    (∀ r ∈ birds, rankOf ranks r ≤ if r.antecedent.has ⟨"penguin", [], true⟩ then 1 else 0) ∧
    ∃ fewer u', (ranking {} (birds.filter fun r => r.antecedent.has ⟨"penguin", [], true⟩)).run {} =
        (.ok (some fewer), u') ∧
      ∀ r ∈ birds.filter fun r => r.antecedent.has ⟨"penguin", [], true⟩,
        rankOf fewer r ≤ rankOf ranks r := by
  have exists_run (rules : OrdSet DefaultRule)
      (h : ((ranking {} rules).run {}).1.toOption.join.isSome = true) :
      ∃ ranks s', (ranking {} rules).run {} = (.ok (some ranks), s') := by
    rcases run : (ranking {} rules).run {} with ⟨_ | _ | ranks, s'⟩
    · rw [run] at h
      cases h
    · rw [run] at h
      cases h
    · exact ⟨ranks, s', rfl⟩
  obtain ⟨ranks, s', run⟩ := exists_run birds (by decide +kernel)
  obtain ⟨fewer, u', run'⟩ :=
    exists_run (birds.filter fun r => r.antecedent.has ⟨"penguin", [], true⟩) (by decide +kernel)
  obtain ⟨-, -, least, mono⟩ := ranking_least {} Settings.probable_default birds (by decide +kernel) {} s'
    (Session.truthful_new _) ranks run
  refine ⟨ranks, s', run, least _ fun r hr => ?_, fewer, u', run',
    mono _ (fun r hr => (OrdSet.mem_filter.1 hr).1) {} {} u' fewer Settings.probable_default
      (Session.truthful_new _) run'⟩
  -- A bird that flies and is no penguin, and a penguin that does not fly.
  let w (r : DefaultRule) : World := fun l =>
    if r.antecedent.has ⟨"penguin", [], true⟩ then l.predicate != "flies" else l.predicate != "penguin"
  have models : ∀ r ∈ birds.toList, (∀ s ∈ birds.toList,
      (if r.antecedent.has ⟨"penguin", [], true⟩ then 1 else 0) ≤
        (if s.antecedent.has ⟨"penguin", [], true⟩ then 1 else 0) → s.implication.Holds (w r)) ∧
      ∀ l ∈ r.antecedent.toList, l.Holds (w r) := by decide +kernel
  exact ⟨w r, fun s hs => (models r hr).1 s hs.1 hs.2, (models r hr).2⟩

end Defeasible
