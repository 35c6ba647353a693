import Defeasible.Proofs.Theory.Consequence
import Defeasible.Proofs.Theory.Redundancy
import Defeasible.Proofs.Theory.Trimmed

/-! Clauses that lose literals as long as what is left of them follows from their level and the levels above. A shorter
clause that follows says no less than the longer one and no more than the level, so the level goes on to say the same,
and what follows from it stays the same for all clauses to come. A clause that was found too short to lose anything
stays so, whatever happens to the others. -/

namespace Defeasible

open Query (Answers)

variable {c d e : Clause} {l : Literal} {cs : List Clause} {strictCut level level' originals : ClauseSet} {fuel : Nat}

theorem Clause.size_without_lt (hl : l ∈ c) : (c.without l).size < c.size :=
  OrdSet.size_lt_of_subset (fun _ hm => (mem_without.1 hm).1) hl fun kept => (mem_without.1 kept).2 rfl

/-! ### One literal -/

structure Loses (strictCut level : ClauseSet) (c d : Clause) : Prop where
  without : ∃ l ∈ c, d = c.without l
  follows : d.FollowsFrom (level ∪ strictCut)

theorem Loses.subset (loses : Loses strictCut level c d) : ∀ l ∈ d, l ∈ c := by
  obtain ⟨l, -, rfl⟩ := loses.without
  exact fun m hm => (Clause.mem_without.1 hm).1

theorem Loses.size_lt (loses : Loses strictCut level c d) : d.size < c.size := by
  obtain ⟨l, hl, rfl⟩ := loses.without
  exact Clause.size_without_lt hl

def Tight (strictCut level : ClauseSet) (c : Clause) : Prop :=
  2 ≤ c.size → ∀ l ∈ c, ¬ (c.without l).FollowsFrom (level ∪ strictCut)

theorem tight_iff_of_alike (alike : AlikeUnder strictCut level' level) :
    Tight strictCut level' c ↔ Tight strictCut level c :=
  imp_congr_right fun _ => forall₂_congr fun _ _ => not_congr alike.followsFrom_iff

open Classical in
noncomputable def firstShorter (strictCut level : ClauseSet) (c : Clause) (ls : List Literal) : Option Clause :=
  (ls.find? fun l => (c.without l).FollowsFrom (level ∪ strictCut)).map c.without

noncomputable def shortened (strictCut : ClauseSet) : (fuel : Nat) → Clause → (level : ClauseSet) → ClauseSet
  | 0, _, level => level
  | fuel + 1, c, level =>
    if c.size ≤ 1 then level else
      match firstShorter strictCut level c c.toList with
      | none => level
      | some d => shortened strictCut fuel d ((level.erase c).insert d)

noncomputable def tightened (strictCut level : ClauseSet) : ClauseSet :=
  level.toList.foldl (fun level c => shortened strictCut c.size c level) level

theorem loses_of_firstShorter (found : firstShorter strictCut level c c.toList = some d) :
    Loses strictCut level c d := by
  obtain ⟨l, first, rfl⟩ := Option.map_eq_some_iff.1 found
  exact ⟨⟨l, List.mem_of_find?_eq_some first, rfl⟩, by simpa using List.find?_some first⟩

theorem firstShorter_eq_none : firstShorter strictCut level c c.toList = none ↔
    ∀ l ∈ c, ¬ (c.without l).FollowsFrom (level ∪ strictCut) := by
  simp only [firstShorter, Option.map_eq_none_iff, List.find?_eq_none, decide_eq_true_eq]
  rfl

theorem shortened_cases (strictCut level : ClauseSet) (fuel : Nat) (c : Clause) :
    (Tight strictCut level c ∧ shortened strictCut (fuel + 1) c level = level) ∨
      ∃ d, Loses strictCut level c d ∧
        shortened strictCut (fuel + 1) c level = shortened strictCut fuel d ((level.erase c).insert d) := by
  rw [shortened]
  split
  next small => exact .inl ⟨fun large => absurd (Nat.le_trans large small) (by decide), rfl⟩
  next =>
    split
    next none => exact .inl ⟨fun _ => firstShorter_eq_none.1 none, rfl⟩
    next d found => exact .inr ⟨d, loses_of_firstShorter found, rfl⟩

theorem Tight.shortened_eq (tight : Tight strictCut level c) : shortened strictCut fuel c level = level := by
  cases fuel with
  | zero => rfl
  | succ fuel =>
    rw [shortened]
    split
    · rfl
    next large => rw [firstShorter_eq_none.2 (tight (by omega))]

theorem alike_replace (loses : Loses strictCut level c d) :
    AlikeUnder strictCut ((level.erase c).insert d) level := by
  refine fun w above => ⟨fun models e he => ?_, fun models e he => ?_⟩
  · by_cases same : e = c
    · rw [same]
      exact (models d (OrdSet.mem_insert.2 (.inl rfl))).of_subset loses.subset
    · exact models e (OrdSet.mem_insert.2 (.inr (OrdSet.mem_erase.2 ⟨he, same⟩)))
  · rcases OrdSet.mem_insert.1 he with rfl | he
    · exact loses.follows w (OrdSet.forall_mem_union.2 ⟨models, above⟩)
    · exact models e (OrdSet.mem_erase.1 he).1

/-! ### All literals -/

/-- What is known of a level that was made from others while some clauses have not had their turn. These need not be in
the level: the loss of another clause may have replaced them, or brought them back. -/
structure Underway (strictCut originals : ClauseSet) (todo : List Clause) (level : ClauseSet) : Prop where
  alike : AlikeUnder strictCut level originals
  trims : Trims level originals
  whole : ∀ c ∈ todo, ∃ e ∈ originals, ∀ l ∈ c, l ∈ e
  rest : ∀ c ∈ level, c ∈ todo ∨ Tight strictCut originals c

namespace Underway

theorem start (strictCut level : ClauseSet) : Underway strictCut level level.toList level :=
  ⟨.refl _ _, .refl _, fun c hc => ⟨c, hc, fun _ => id⟩, fun _ => .inl⟩

theorem lose (underway : Underway strictCut originals (c :: cs) level) (loses : Loses strictCut level c d) :
    Underway strictCut originals (d :: cs) ((level.erase c).insert d) := by
  obtain ⟨⟨e, he, subset⟩, whole⟩ := List.forall_mem_cons.1 underway.whole
  have inside : ∃ e ∈ originals, ∀ l ∈ d, l ∈ e := ⟨e, he, fun l hl => subset l (loses.subset l hl)⟩
  have pieces : ∀ x ∈ (level.erase c).insert d, ∃ e ∈ originals, ∀ l ∈ x, l ∈ e :=
    OrdSet.forall_mem_insert.2 ⟨inside, OrdSet.forall_mem_erase underway.trims.whole⟩
  refine ⟨(alike_replace loses).trans underway.alike, ⟨pieces, fun x hx => ?_⟩,
    List.forall_mem_cons.2 ⟨inside, whole⟩, fun x hx => ?_⟩
  · obtain ⟨y, hy, subset⟩ := underway.trims.rest x hx
    by_cases same : y = c
    · exact ⟨d, OrdSet.mem_insert.2 (.inl rfl), fun l hl => subset l (same ▸ loses.subset l hl)⟩
    · exact ⟨y, OrdSet.mem_insert.2 (.inr (OrdSet.mem_erase.2 ⟨hy, same⟩)), subset⟩
  · rcases OrdSet.mem_insert.1 hx with rfl | hx
    · exact .inl List.mem_cons_self
    · -- The longer clause is off the list, but out of the level as well.
      obtain ⟨hx, other⟩ := OrdSet.mem_erase.1 hx
      refine (underway.rest x hx).imp_left fun todo => List.mem_cons_of_mem d ?_
      exact (List.mem_cons.1 todo).resolve_left other

theorem settle (underway : Underway strictCut originals (c :: cs) level) (tight : Tight strictCut level c) :
    Underway strictCut originals cs level := by
  refine ⟨underway.alike, underway.trims, (List.forall_mem_cons.1 underway.whole).2, fun x hx => ?_⟩
  rcases underway.rest x hx with todo | tight'
  · rcases List.mem_cons.1 todo with rfl | todo
    · exact .inr ((tight_iff_of_alike underway.alike).1 tight)
    · exact .inl todo
  · exact .inr tight'

theorem turn (underway : Underway strictCut originals (c :: cs) level) (enough : c.size ≤ fuel) :
    Underway strictCut originals cs (shortened strictCut fuel c level) := by
  induction fuel generalizing c level with
  | zero => exact underway.settle fun large => absurd (Nat.le_trans large enough) (by decide)
  | succ fuel ih =>
    rcases shortened_cases strictCut level fuel c with ⟨tight, same⟩ | ⟨d, loses, next⟩
    · rw [same]
      exact underway.settle tight
    · rw [next]
      exact ih (underway.lose loses) (Nat.le_of_lt_succ (Nat.lt_of_lt_of_le loses.size_lt enough))

theorem turns (underway : Underway strictCut originals cs level) :
    Underway strictCut originals [] (cs.foldl (fun level c => shortened strictCut c.size c level) level) := by
  induction cs generalizing level with
  | nil => exact underway
  | cons c cs ih => exact ih (underway.turn (Nat.le_refl _))

end Underway

theorem underway_tightened (strictCut level : ClauseSet) :
    Underway strictCut level [] (tightened strictCut level) :=
  (Underway.start strictCut level).turns

theorem tight_of_mem_tightened (hc : c ∈ tightened strictCut level) :
    Tight strictCut (tightened strictCut level) c :=
  have underway := underway_tightened strictCut level
  (tight_iff_of_alike underway.alike).2 ((underway.rest c hc).resolve_left List.not_mem_nil)

theorem tightened_eq (tight : ∀ c ∈ level, Tight strictCut level c) : tightened strictCut level = level :=
  List.foldlRecOn (motive := (· = level)) level.toList _ rfl fun level' same c hc => by
    rw [same]
    exact (tight c hc).shortened_eq

namespace Theory

variable {t : Theory} {E : Error → Prop}

/-! ### Queries -/

theorem bind_shorter?_congr {β : Type} {ls : List Literal} {k k' : Option Clause → Query β} (none : k none = k' none)
    (some : ∀ l ∈ ls, k (some (c.without l)) = k' (some (c.without l))) :
    t.shorter? strictCut level c ls >>= k = t.shorter? strictCut level c ls >>= k' := by
  induction ls with
  | nil => simpa [shorter?] using none
  | cons l ls ih =>
    obtain ⟨first, rest⟩ := List.forall_mem_cons.1 some
    rw [shorter?, bind_assoc, bind_assoc]
    refine bind_congr fun follows => ?_
    split
    · rw [pure_bind, pure_bind, first]
    · exact ih rest

theorem shorten_of_size_le_one (small : c.size ≤ 1) : t.shorten strictCut fuel c level = pure level := by
  cases fuel with
  | zero => rfl
  | succ fuel => rw [shorten, if_pos small]

theorem shorten_stable (enough : c.size ≤ fuel) (more : Nat) :
    t.shorten strictCut (fuel + more) c level = t.shorten strictCut fuel c level := by
  induction fuel generalizing c level with
  | zero => rw [shorten_of_size_le_one (by omega), shorten_of_size_le_one (by omega)]
  | succ fuel ih =>
    rw [Nat.succ_add_eq_add_succ, Nat.add_succ, shorten, shorten]
    split
    · rfl
    · refine bind_shorter?_congr rfl fun l hl => ?_
      exact ih (Nat.le_of_lt_succ (Nat.lt_of_lt_of_le (Clause.size_without_lt hl) enough))

section Queries

variable (solves : t.Solves E)

include solves

theorem shorter?_meets (ground : ∀ d ∈ level ∪ strictCut, d.isGround = true) (ground_clause : c.isGround = true)
    (ls : List Literal) :
    (t.shorter? strictCut level c ls).Meets (· = firstShorter strictCut level c ls) E := by
  induction ls with
  | nil => exact .pure rfl
  | cons l ls ih =>
    have ground_shorter : (c.without l).isGround = true :=
      Clause.ground_of_subset ground_clause fun m hm => (Clause.mem_without.1 hm).1
    rw [shorter?]
    refine (follows_meets solves ground ground_shorter).bind fun implied follows => ?_
    split
    next found => exact .pure (by simp [firstShorter, follows.1 found])
    next missing =>
      have unimplied : ¬ (c.without l).FollowsFrom (level ∪ strictCut) := fun h => missing (follows.2 h)
      exact ih.imp fun answer same => same.trans (by simp [firstShorter, unimplied])

theorem shorten_meets (ground : ∀ d ∈ level ∪ strictCut, d.isGround = true) (ground_clause : c.isGround = true)
    (fuel : Nat) :
    (t.shorten strictCut fuel c level).Meets (fun level' => level' = shortened strictCut fuel c level ∧
      ∀ d ∈ level' ∪ strictCut, d.isGround = true) E := by
  induction fuel generalizing c level with
  | zero => exact .pure ⟨rfl, ground⟩
  | succ fuel ih =>
    rw [shorten, shortened]
    split
    · exact .pure ⟨rfl, ground⟩
    refine (shorter?_meets solves ground ground_clause c.toList).bind fun answer same => ?_
    rw [← same]
    cases answer with
    | none => exact .pure ⟨rfl, ground⟩
    | some d =>
      have ground_shorter := Clause.ground_of_subset ground_clause (loses_of_firstShorter same.symm).subset
      obtain ⟨ground_level, ground_above⟩ := OrdSet.forall_mem_union.1 ground
      have ground_rest : ∀ e ∈ (level.erase c).insert d, e.isGround = true :=
        OrdSet.forall_mem_insert.2 ⟨ground_shorter, OrdSet.forall_mem_erase ground_level⟩
      exact ih (OrdSet.forall_mem_union.2 ⟨ground_rest, ground_above⟩) ground_shorter

end Queries

noncomputable def tightenLevels (t : Theory) : Theory := t.mapLevels fun n => tightened (t.strictCut n)

theorem simplifyBySat_meets (ground : ∀ c ∈ t.clauses, c.isGround = true) (solves : t.Solves E) :
    t.simplifyBySat.Meets (· = t.tightenLevels) E := by
  unfold simplifyBySat
  refine (Query.Meets.mapM_eq (g := fun l => ⟨l.necessity, tightened (t.strictCut l.necessity) l.clauses⟩)
    fun l hl => ?_).bind fun levels made => .pure (made ▸ rfl)
  have ground_level := ground_level_strictCut ground hl
  have turn (c : Clause) (hc : c ∈ l.clauses) (level : ClauseSet)
      (ground : ∀ d ∈ level ∪ t.strictCut l.necessity, d.isGround = true) :=
    shorten_meets solves ground (ground_level c (OrdSet.mem_union.2 (.inl hc))) c.size
  exact (Query.Meets.foldlM_eq turn ground_level).bind fun clauses made => .pure (made ▸ rfl)

/-! ### What is left -/

theorem trimmed_tightened (t : Theory) : List.Forall₂ Trimmed
    (t.levels.map fun l => ⟨l.necessity, tightened (t.strictCut l.necessity) l.clauses⟩) t.levels :=
  List.forall₂_map_left_iff.2 (List.forall₂_same.2 fun l _ => ⟨rfl, (underway_tightened _ l.clauses).trims⟩)

section Left

variable (ascending : Ascending t.levels)

include ascending

theorem level_tightenLevels (n : Necessity) : t.tightenLevels.level n = tightened (t.strictCut n) (t.level n) :=
  level_mapLevels ascending (fun _ => rfl) n

theorem levelwise_tightenLevels : t.tightenLevels.Levelwise t :=
  ⟨rfl, fun n => level_tightenLevels ascending n ▸ (underway_tightened _ _).alike⟩

theorem tight_tightenLevels (n : Necessity) (hc : c ∈ t.tightenLevels.level n) :
    Tight (t.tightenLevels.strictCut n) (t.tightenLevels.level n) c := by
  intro large l hl follows
  rw [level_tightenLevels ascending] at hc follows
  exact tight_of_mem_tightened hc large l hl ((levelwise_tightenLevels ascending).followsFrom_iff.1 follows)

theorem tightenLevels_tightenLevels : t.tightenLevels.tightenLevels = t.tightenLevels := by
  have regular : t.tightenLevels.Regular := regular_withLevels t _
  have kept (n : Necessity) := tightened_eq fun c hc => tight_tightenLevels ascending n (c := c) hc
  exact (mapLevels_eq_self regular.ascending kept).trans (withLevels_levels t _)

end Left

/-- A clause has lost all it can after as many turns as it has literals. Necessities, hard rules and the models of each
cut stay as they are, and so do the answers. No clause of two literals or more that is left can lose one and still
follow from its level and from all above, so nothing changes the second time. -/
theorem simplifyBySat_exhaustive (t : Theory) (regular : t.Regular) (populated : t.Populated)
    (ground : ∀ c ∈ t.clauses, c.isGround = true) (probable : t.settings.Probable) :
    (∀ (strictCut level : ClauseSet) (c : Clause) (more : Nat),
      t.shorten strictCut (c.size + more) c level = t.shorten strictCut c.size c level) ∧
    ∃ u, t.simplifyBySat.Answers t.settings u ∧ u.weights = t.weights ∧ u.hardRules = t.hardRules ∧
      (∀ n w, (∀ c ∈ u.cut n, c.Holds w) ↔ ∀ c ∈ t.cut n, c.Holds w) ∧
      (∀ evidence : Evidence, (∀ l ∈ evidence, l.isGround = true) → t.SameAnswers u evidence) ∧
      (∀ n, ∀ c ∈ u.level n, 2 ≤ c.size → ∀ l ∈ c, ¬ (c.without l).FollowsFrom (u.level n ∪ u.strictCut n)) ∧
      u.simplifyBySat.Answers t.settings u := by
  have ascending := regular.ascending
  have trimmed := trimmed_tightened t
  have regular' : t.tightenLevels.Regular := regular_withLevels t _
  have ground' : ∀ c ∈ t.tightenLevels.clauses, c.isGround = true :=
    ground_of_trimmed trimmed regular populated ground
  have equivalent : t.tightenLevels.Equivalent t :=
    ⟨degrees_of_trimmed trimmed regular populated, (levelwise_tightenLevels ascending).cut_iff⟩
  refine ⟨fun _ _ _ => shorten_stable (Nat.le_refl _), t.tightenLevels,
    simplifyBySat_meets ground (solves_within probable), weights_of_trimmed trimmed regular populated, rfl,
    equivalent.models, fun evidence => equivalent.sameAnswers rfl regular regular' ground ground' probable,
    fun n c => tight_tightenLevels ascending n, ?_⟩
  have again := simplifyBySat_meets ground' (solves_within (t := t.tightenLevels) probable)
  rwa [tightenLevels_tightenLevels ascending] at again

/-- The first clause turns into the second one on its way, so this has gone when its turn comes. -/
def entangled : Theory :=
  ofStrata [.ofList [.ofList [⟨"a", [], true⟩, ⟨"b", [], true⟩, ⟨"c", [], true⟩],
      .ofList [⟨"a", [], true⟩, ⟨"c", [], true⟩]],
    .ofList [.unit ⟨"b", [], false⟩, .unit ⟨"c", [], false⟩]]

theorem simplifyBySat_exhaustive_entangled : ∃ u s' u', entangled.simplifyBySat.run {} = (.ok u, s') ∧
    u.strata = [.singleton (.unit ⟨"a", [], true⟩), .ofList [.unit ⟨"b", [], false⟩, .unit ⟨"c", [], false⟩]] ∧
    (∀ w, (∀ c ∈ u.cut (.ofLevel 0 2), c.Holds w) ↔ ∀ c ∈ entangled.cut (.ofLevel 0 2), c.Holds w) ∧
    u.simplifyBySat.run {} = (.ok u, u') := by
  obtain ⟨-, u, answer, -, -, models, -, -, again⟩ := simplifyBySat_exhaustive entangled (regular_ofStrata _)
    (populated_ofStrata _) (by decide +kernel) Settings.probable_default
  obtain ⟨s', run, -⟩ := answer.run rfl (Session.truthful_new _)
  have strata : (entangled.simplifyBySat.run {}).1.map strata =
      .ok [.singleton (.unit ⟨"a", [], true⟩), .ofList [.unit ⟨"b", [], false⟩, .unit ⟨"c", [], false⟩]] := by
    decide +kernel
  rw [run] at strata
  obtain ⟨u', run', -⟩ := again.run rfl (Session.truthful_new _)
  exact ⟨u, s', u', run, Except.ok.inj strata, models _, run'⟩

end Theory

end Defeasible
