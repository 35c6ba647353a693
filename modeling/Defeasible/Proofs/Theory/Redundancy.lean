import Defeasible.Proofs.Search.Optimizer
import Defeasible.Proofs.Theory.Levelwise
import Defeasible.Proofs.Theory.Thinned
import Defeasible.Theory.Redundancy

/-! Clauses that follow from the others of their level and from the levels above can go, one after the other. Each is
looked at once: what does not follow from its level does not follow from less. Above each level the theory says the same
before and after, so it does not matter that the levels above are asked as they were. -/

namespace Defeasible

open Query (Answers)

variable {c d : Clause} {cs : List Clause} {strictCut level level' level'' : ClauseSet}

/-! ### One level -/

open Classical in
noncomputable def dropImplied (strictCut level : ClauseSet) (c : Clause) : ClauseSet :=
  if c.FollowsFrom (level.erase c ∪ strictCut) then level.erase c else level

noncomputable def pruned (strictCut : ClauseSet) (cs : List Clause) (level : ClauseSet) : ClauseSet :=
  cs.foldl (dropImplied strictCut) level

structure Prunes (strictCut level' level : ClauseSet) : Prop where
  subset : ∀ c ∈ level', c ∈ level
  alike : AlikeUnder strictCut level' level

theorem Prunes.trans (prunes : Prunes strictCut level'' level') (prunes' : Prunes strictCut level' level) :
    Prunes strictCut level'' level :=
  ⟨fun c hc => prunes'.subset c (prunes.subset c hc), prunes.alike.trans prunes'.alike⟩

theorem prunes_refl (strictCut level : ClauseSet) : Prunes strictCut level level := ⟨fun _ => id, .refl _ _⟩

theorem prunes_dropImplied : Prunes strictCut (dropImplied strictCut level c) level := by
  unfold dropImplied
  split
  next follows =>
    have subset (d : Clause) (hd : d ∈ level.erase c) : d ∈ level := (OrdSet.mem_erase.1 hd).1
    refine ⟨subset, fun w above => ⟨fun models d hd => ?_, fun models d hd => models d (subset d hd)⟩⟩
    by_cases same : d = c
    · rw [same]
      exact follows w (OrdSet.forall_mem_union.2 ⟨models, above⟩)
    · exact models d (OrdSet.mem_erase.2 ⟨hd, same⟩)
  next => exact prunes_refl strictCut level

theorem prunes_pruned : Prunes strictCut (pruned strictCut cs level) level :=
  List.foldlRecOn (motive := (Prunes strictCut · level)) cs _ (prunes_refl strictCut level) fun _ prunes _ _ =>
    prunes_dropImplied.trans prunes

theorem mem_dropImplied (hd : d ∈ level) (other : d ≠ c) : d ∈ dropImplied strictCut level c := by
  unfold dropImplied
  split
  · exact OrdSet.mem_erase.2 ⟨hd, other⟩
  · exact hd

theorem mem_pruned (hd : d ∈ level) (other : ¬ d ∈ cs) : d ∈ pruned strictCut cs level :=
  List.foldlRecOn (motive := (d ∈ ·)) cs _ hd fun _ mem _ hc =>
    mem_dropImplied mem fun same => other (same ▸ hc)

theorem pruned_cons_of_followsFrom (follows : c.FollowsFrom (level.erase c ∪ strictCut)) :
    pruned strictCut (c :: cs) level = pruned strictCut cs (level.erase c) := by
  rw [pruned, List.foldl_cons, dropImplied, if_pos follows, pruned]

theorem pruned_cons_of_not_followsFrom (unimplied : ¬ c.FollowsFrom (level.erase c ∪ strictCut)) :
    pruned strictCut (c :: cs) level = pruned strictCut cs level := by
  rw [pruned, List.foldl_cons, dropImplied, if_neg unimplied, pruned]

/-- A clause that stays followed from the others neither when it was looked at nor later, when there are fewer. -/
theorem not_followsFrom_of_mem_pruned (hc : c ∈ cs) (kept : c ∈ pruned strictCut cs level) :
    ¬ c.FollowsFrom ((pruned strictCut cs level).erase c ∪ strictCut) := by
  induction cs generalizing level with
  | nil => cases hc
  | cons d cs ih =>
    by_cases follows : d.FollowsFrom (level.erase d ∪ strictCut)
    · rw [pruned_cons_of_followsFrom follows] at kept ⊢
      rcases List.mem_cons.1 hc with rfl | hc
      · exact absurd (prunes_pruned.subset c kept) fun mem => (OrdSet.mem_erase.1 mem).2 rfl
      · exact ih hc kept
    · rw [pruned_cons_of_not_followsFrom follows] at kept ⊢
      rcases List.mem_cons.1 hc with rfl | hc
      · refine fun follows' => follows (follows'.mono fun e he => ?_)
        refine OrdSet.mem_union.2 ((OrdSet.mem_union.1 he).imp_left fun he => ?_)
        obtain ⟨he, other⟩ := OrdSet.mem_erase.1 he
        exact OrdSet.mem_erase.2 ⟨prunes_pruned.subset e he, other⟩
      · exact ih hc kept

def longestFirst (level : ClauseSet) : List Clause := stableSort (fun c d => d.size ≤ c.size) level.toList

theorem mem_longestFirst : c ∈ longestFirst level ↔ c ∈ level :=
  (stableSort_perm _ _).mem_iff

theorem nodup_longestFirst : (longestFirst level).Nodup :=
  (stableSort_perm _ _).nodup_iff.2 level.nodup_toList

noncomputable def pruneLevel (strictCut level : ClauseSet) : ClauseSet := pruned strictCut (longestFirst level) level

def Irredundant (strictCut level : ClauseSet) : Prop := ∀ c ∈ level, ¬ c.FollowsFrom (level.erase c ∪ strictCut)

theorem irredundant_pruneLevel : Irredundant strictCut (pruneLevel strictCut level) :=
  fun c hc => not_followsFrom_of_mem_pruned (mem_longestFirst.2 (prunes_pruned.subset c hc)) hc

theorem Irredundant.pruned_eq (irredundant : Irredundant strictCut level) (inside : ∀ c ∈ cs, c ∈ level) :
    pruned strictCut cs level = level := by
  induction cs with
  | nil => rfl
  | cons c cs ih =>
    obtain ⟨first, rest⟩ := List.forall_mem_cons.1 inside
    rw [pruned_cons_of_not_followsFrom (irredundant c first), ih rest]

theorem Irredundant.pruneLevel_eq (irredundant : Irredundant strictCut level) : pruneLevel strictCut level = level :=
  irredundant.pruned_eq fun _ => mem_longestFirst.1

namespace Theory

variable {t : Theory} {E : Error → Prop}

/-! ### Queries -/

section Queries

variable (solves : t.Solves E)

include solves

theorem follows_meets (ground : ∀ d ∈ level ∪ strictCut, d.isGround = true) (ground_clause : c.isGround = true) :
    (t.follows c level strictCut).Meets (fun b => b = true ↔ c.FollowsFrom (level ∪ strictCut)) E := by
  obtain ⟨ground_level, ground_above⟩ := OrdSet.forall_mem_union.1 ground
  have ground_negated : ∀ l ∈ c.negated, l.isGround = true :=
    List.forall_mem_map.2 (List.all_eq_true.1 ground_clause)
  have ground_units : ∀ d ∈ units c.negated, d.isGround = true :=
    fun d hd => List.all_eq_true.2 (over_units ground_negated d hd)
  have ground_problem : ∀ d ∈ level ∪ units c.negated ∪ strictCut, d.isGround = true :=
    OrdSet.forall_mem_union.2 ⟨OrdSet.forall_mem_union.2 ⟨ground_level, ground_units⟩, ground_above⟩
  have models (w : World) : (∀ d ∈ level ∪ units c.negated ∪ strictCut, d.Holds w) ↔
      (∀ d ∈ level ∪ strictCut, d.Holds w) ∧ ¬ c.Holds w := by
    rw [OrdSet.forall_mem_union, OrdSet.forall_mem_union, OrdSet.forall_mem_union, forall_units,
      Clause.forall_negated, and_right_comm]
  refine (solves _ ground_problem).bind fun answer settles => .pure ?_
  rw [← Bool.not_eq_false, Option.isNone_eq_false_iff, settles.isSome_iff]
  constructor
  · intro unfalsified w holds
    by_contra fails
    exact unfalsified ⟨w, (models w).2 ⟨holds, fails⟩, nofun⟩
  · rintro follows ⟨w, falsified, -⟩
    obtain ⟨holds, fails⟩ := (models w).1 falsified
    exact fails (follows w holds)

theorem keepUnimplied_meets (ground : ∀ d ∈ level ∪ strictCut, d.isGround = true) (inside : ∀ c ∈ cs, c ∈ level)
    (nodup : cs.Nodup) : (t.keepUnimplied strictCut cs level).Meets
      (fun kept => ∀ d, d ∈ kept ↔ d ∈ cs ∧ d ∈ pruned strictCut cs level) E := by
  induction cs generalizing level with
  | nil => exact .pure fun d => iff_of_false List.not_mem_nil fun h => List.not_mem_nil h.1
  | cons c cs ih =>
    obtain ⟨first, rest⟩ := List.forall_mem_cons.1 inside
    obtain ⟨new, nodup⟩ := List.nodup_cons.1 nodup
    obtain ⟨ground_level, ground_above⟩ := OrdSet.forall_mem_union.1 ground
    have ground_rest : ∀ d ∈ level.erase c ∪ strictCut, d.isGround = true :=
      OrdSet.forall_mem_union.2 ⟨OrdSet.forall_mem_erase ground_level, ground_above⟩
    rw [keepUnimplied]
    refine (follows_meets solves ground_rest (ground_level c first)).bind fun implied follows => ?_
    split
    next found =>
      have gone (kept : c ∈ pruned strictCut cs (level.erase c)) : False :=
        (OrdSet.mem_erase.1 (prunes_pruned.subset c kept)).2 rfl
      have inside' : ∀ d ∈ cs, d ∈ level.erase c :=
        fun d hd => OrdSet.mem_erase.2 ⟨rest d hd, fun same => new (same ▸ hd)⟩
      rw [pruned_cons_of_followsFrom (follows.1 found)]
      refine (ih ground_rest inside' nodup).imp fun kept mem d => (mem d).trans (and_congr_left fun hd => ?_)
      exact (or_iff_right fun same : d = c => gone (same ▸ hd)).symm.trans List.mem_cons.symm
    next missing =>
      rw [pruned_cons_of_not_followsFrom fun h => missing (follows.2 h)]
      refine (ih ground rest nodup).bind fun kept mem => .pure fun d => ?_
      rw [List.mem_cons, List.mem_cons, mem, or_and_right]
      exact or_congr_left (and_iff_left_of_imp fun same => same ▸ mem_pruned first new).symm

end Queries

theorem ground_level_strictCut (ground : ∀ c ∈ t.clauses, c.isGround = true) {l : Level} (hl : l ∈ t.levels) :
    ∀ d ∈ l.clauses ∪ t.strictCut l.necessity, d.isGround = true := by
  refine OrdSet.forall_mem_union.2 ⟨fun d hd => ?_, fun d hd => ?_⟩
  · exact ground d (mem_clauses.2 (.inl ⟨l, hl, hd⟩))
  · exact ground d (mem_clauses_of_mem_strictCut hd)

noncomputable def pruneLevels (t : Theory) : Theory := t.mapLevels fun n => pruneLevel (t.strictCut n)

theorem withoutImplied_meets (ground : ∀ c ∈ t.clauses, c.isGround = true) (solves : t.Solves E) :
    t.withoutImplied.Meets (· = t.pruneLevels) E := by
  unfold withoutImplied
  refine (Query.Meets.mapM_eq (g := fun l => ⟨l.necessity, pruneLevel (t.strictCut l.necessity) l.clauses⟩)
    fun l hl => ?_).bind fun levels made => .pure (made ▸ rfl)
  have meets := keepUnimplied_meets solves (ground_level_strictCut ground hl) (fun c => mem_longestFirst.1)
    nodup_longestFirst
  refine meets.bind fun kept mem => .pure (congrArg (Level.mk l.necessity) (OrdSet.ext fun c => ?_))
  rw [OrdSet.mem_ofList, mem, mem_longestFirst]
  exact and_iff_right_of_imp (prunes_pruned.subset c)

/-! ### What is left -/

section Left

variable (ascending : Ascending t.levels)

include ascending

theorem level_pruneLevels (n : Necessity) : t.pruneLevels.level n = pruneLevel (t.strictCut n) (t.level n) :=
  level_mapLevels ascending (fun _ => rfl) n

theorem prunes_pruneLevels (n : Necessity) : Prunes (t.strictCut n) (t.pruneLevels.level n) (t.level n) :=
  level_pruneLevels ascending n ▸ prunes_pruned

theorem levelwise_pruneLevels : t.pruneLevels.Levelwise t :=
  ⟨rfl, fun n => (prunes_pruneLevels ascending n).alike⟩

theorem irredundant_pruneLevels (n : Necessity) :
    Irredundant (t.pruneLevels.strictCut n) (t.pruneLevels.level n) := by
  intro c hc follows
  rw [level_pruneLevels ascending] at hc follows
  exact irredundant_pruneLevel c hc ((levelwise_pruneLevels ascending).followsFrom_iff.1 follows)

theorem ground_pruneLevels (ground : ∀ c ∈ t.clauses, c.isGround = true) :
    ∀ c ∈ t.pruneLevels.clauses, c.isGround = true := by
  intro c hc
  refine ground c (mem_clauses_iff_level.2 ?_)
  exact (mem_clauses_iff_level.1 hc).imp_left (Exists.imp fun n => (prunes_pruneLevels ascending n).subset c)

theorem pruneLevels_pruneLevels : t.pruneLevels.pruneLevels = t.pruneLevels := by
  have regular : t.pruneLevels.Regular := regular_withLevels t _
  have kept (n : Necessity) := (irredundant_pruneLevels ascending n).pruneLevel_eq
  exact (mapLevels_eq_self regular.ascending kept).trans (withLevels_levels t _)

theorem thinned_pruneLevels : t.pruneLevels.Thinned t := by
  refine ⟨rfl, fun n hn => ?_, (levelwise_pruneLevels ascending).cut_iff⟩
  obtain ⟨c, hc⟩ := (mem_weights_iff_level (populated_withLevels t _)).1 hn
  obtain ⟨l, hl, rfl, -⟩ := mem_level.1 ((prunes_pruneLevels ascending n).subset c hc)
  exact List.mem_map_of_mem hl

end Left

/-- Each cut keeps its models when implied clauses go, each clause that stays was at its level before, and none of them
follows from the others of its level and from all above, so nothing changes the second time. -/
theorem withoutImplied_irredundant (t : Theory) (regular : t.Regular) (ground : ∀ c ∈ t.clauses, c.isGround = true)
    (probable : t.settings.Probable) :
    ∃ u, t.withoutImplied.Answers t.settings u ∧ u.hardRules = t.hardRules ∧
      (∀ n w, (∀ c ∈ u.cut n, c.Holds w) ↔ ∀ c ∈ t.cut n, c.Holds w) ∧
      (∀ n, ∀ c ∈ u.level n, c ∈ t.level n) ∧
      (∀ n, ∀ c ∈ u.level n, ¬ c.FollowsFrom ((u.level n).erase c ∪ u.strictCut n)) ∧
      u.withoutImplied.Answers t.settings u := by
  have ascending := regular.ascending
  refine ⟨t.pruneLevels, withoutImplied_meets ground (solves_within probable), rfl,
    (levelwise_pruneLevels ascending).cut_iff, fun n => (prunes_pruneLevels ascending n).subset,
    irredundant_pruneLevels ascending, ?_⟩
  have again := withoutImplied_meets (ground_pruneLevels ascending ground) (solves_within (t := t.pruneLevels) probable)
  rwa [pruneLevels_pruneLevels ascending] at again

def subsumed : Theory :=
  ofStrata [.ofList [.ofList [⟨"a", [], true⟩, ⟨"b", [], true⟩], .ofList [⟨"a", [], false⟩, ⟨"c", [], true⟩],
    .ofList [⟨"c", [], true⟩, ⟨"d", [], true⟩]], .singleton (.unit ⟨"a", [], true⟩)]

theorem withoutImplied_irredundant_subsumed : ∃ u s' u', subsumed.withoutImplied.run {} = (.ok u, s') ∧
    u.strata = [.singleton (.ofList [⟨"a", [], false⟩, ⟨"c", [], true⟩]), .singleton (.unit ⟨"a", [], true⟩)] ∧
    (∀ w, (∀ c ∈ u.cut (.ofLevel 0 2), c.Holds w) ↔ ∀ c ∈ subsumed.cut (.ofLevel 0 2), c.Holds w) ∧
    u.withoutImplied.run {} = (.ok u, u') := by
  obtain ⟨u, answer, -, models, -, -, again⟩ := withoutImplied_irredundant subsumed (regular_ofStrata _)
    (by decide +kernel) Settings.probable_default
  obtain ⟨s', run, -⟩ := answer.run rfl (Session.truthful_new _)
  have strata : (subsumed.withoutImplied.run {}).1.map strata =
      .ok [.singleton (.ofList [⟨"a", [], false⟩, ⟨"c", [], true⟩]), .singleton (.unit ⟨"a", [], true⟩)] := by
    decide +kernel
  rw [run] at strata
  obtain ⟨u', run', -⟩ := again.run rfl (Session.truthful_new _)
  exact ⟨u, s', u', run, Except.ok.inj strata, models _, run'⟩

/-- What is left when implied clauses go implies no more, and just the same where it serves. Elsewhere a level is lost
that let the hard rules speak while all levels that are left are drowned. -/
theorem withoutImplied_entails (t : Theory) (regular : t.Regular) (ground : ∀ c ∈ t.clauses, c.isGround = true)
    (probable : t.settings.Probable) :
    ∃ u, t.withoutImplied.Answers t.settings u ∧
      ∀ evidence : Evidence, (∀ l ∈ evidence, l.isGround = true) → ∀ c : Clause, c.isGround = true →
        ∃ b b', (t.implies evidence c).Answers t.settings b ∧ (u.implies evidence c).Answers t.settings b' ∧
          (b' = true → b = true) ∧ (u.Serves t evidence → b' = b) ∧
          (¬ u.Serves t evidence → (b' = true ↔ ∀ w, c.Holds w) ∧ (b = true ↔
            (∀ w, c.Holds w) ∨ (∃ w, t.Possible evidence w) ∧ ∀ w, t.Possible evidence w → c.Holds w)) := by
  classical
  have ascending := regular.ascending
  have regular' : t.pruneLevels.Regular := regular_withLevels t _
  have thinned := thinned_pruneLevels ascending
  refine ⟨t.pruneLevels, withoutImplied_meets ground (solves_within probable),
    fun evidence ground_evidence c ground_consequent => ?_⟩
  refine ⟨decide (t.Entails evidence c), decide (t.pruneLevels.Entails evidence c), ?_, ?_, ?_, ?_, ?_⟩
  · exact implies_answers regular ground probable ground_evidence ground_consequent decide_eq_true_iff
  · exact implies_answers regular' (ground_pruneLevels ascending ground) probable ground_evidence ground_consequent
      decide_eq_true_iff
  · exact fun implied => decide_eq_true (thinned.entails ascending (of_decide_eq_true implied))
  · exact fun serves => decide_eq_decide.2 (thinned.entails_iff ascending serves)
  · rw [decide_eq_true_iff, decide_eq_true_iff]
    exact thinned.entails_iff_of_not_serves ascending regular'.ascending

theorem withoutImplied_entails_subsumed : ∃ u s' b v v', subsumed.withoutImplied.run {} = (.ok u, s') ∧
    (subsumed.implies (.singleton ⟨"c", [], false⟩) (.unit ⟨"a", [], true⟩)).run {} = (.ok b, v) ∧
    (u.implies (.singleton ⟨"c", [], false⟩) (.unit ⟨"a", [], true⟩)).run {} = (.ok b, v') := by
  obtain ⟨u, answer, entails⟩ := withoutImplied_entails subsumed (regular_ofStrata _) (by decide +kernel)
    Settings.probable_default
  obtain ⟨s', run, -⟩ := answer.run rfl (Session.truthful_new _)
  have top : (subsumed.withoutImplied.run {}).1.map (·.maxNecessity?) = .ok subsumed.maxNecessity? := by
    decide +kernel
  rw [run] at top
  obtain ⟨b, b', implied, implied', -, same, -⟩ := entails (.singleton ⟨"c", [], false⟩) (by decide +kernel)
    (.unit ⟨"a", [], true⟩) (by decide +kernel)
  obtain rfl := same (.inr (.inl (Except.ok.inj top)))
  obtain ⟨v, run', -⟩ := implied.run rfl (Session.truthful_new _)
  obtain ⟨v', run'', -⟩ := implied'.run rfl (Session.truthful_new _)
  exact ⟨u, s', _, v, v', run, run', run''⟩

def repeated : Theory :=
  (ofRules [(.unit ⟨"a", [], false⟩, ⟨0x3fe0000000000000⟩),
    (.unit ⟨"b", [], true⟩, ⟨0x3fe8000000000000⟩)]).withHardRules (.singleton (.unit ⟨"b", [], true⟩))

/-- Without the level of the hard rule not even the evidence is implied. -/
theorem withoutImplied_implies_less :
    repeated.isGround = true ∧
    ((repeated.implies (.singleton ⟨"a", [], true⟩) (.unit ⟨"a", [], true⟩)).run {}).1 = .ok true ∧
    ((repeated.withoutImplied >>= fun u =>
      u.implies (.singleton ⟨"a", [], true⟩) (.unit ⟨"a", [], true⟩)).run {}).1 = .ok false :=
  ⟨by decide +kernel, by decide +kernel, by decide +kernel⟩

end Theory

end Defeasible
