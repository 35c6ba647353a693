import Defeasible.Proofs.Theory.Collapse
import Mathlib.Logic.Relation

/-! Levels that are merged with new necessities. The weights of the levels are handed on from turn to turn beside the
theory. As long as something is left of each merged level, they are the necessities of the theory. Where nothing is
left, there is no level, but the weights keep the necessity that was found for it. From then on they are more than the
levels: each turn takes the last two weights for those of the two highest levels, and the merged level comes to the
lower necessity of the two, so that what is found for it is lost. -/

namespace Defeasible.Theory

open Relation

abbrev Recomputation := Theory → (second top : ClauseSet) → (secondWeight topWeight : Necessity) → Query Necessity

def recomputed (recompute : Recomputation) : Reweighing := fun t second top weights =>
  match weights.getLast?, weights.dropLast.getLast? with
  | some topWeight, some secondWeight =>
    recompute t second top secondWeight topWeight >>= fun n => pure (some (weights.dropLast.dropLast ++ [n]))
  | _, _ => pure none

structure Head where
  theory : Theory
  weights : List Necessity
  session : Session

structure Merge where
  lower : List Level
  second : Level
  top : Level
  rest : List Necessity
  secondWeight : Necessity
  topWeight : Necessity
  clauses : ClauseSet
  necessity : Necessity

variable {t u : Theory} {recompute : Recomputation} {maxLiterals fuel : Nat} {a b h : Head} {k : Merge}
  {second top : ClauseSet} {rest : List Necessity} {secondWeight topWeight n : Necessity} {s s' : Session}

theorem mergedWeights_some (count : Counter) :
    (fun t => t.mergedWeights (some count)) = recomputed fun t => t.mergedNecessity count := rfl

theorem recomputed_concat : recomputed recompute t second top (rest ++ [secondWeight, topWeight]) =
    recompute t second top secondWeight topWeight >>= fun n => pure (some (rest ++ [n])) := by
  have last : (rest ++ [secondWeight, topWeight]).getLast? = some topWeight := by simp
  have before : (rest ++ [secondWeight, topWeight]).dropLast = rest ++ [secondWeight] := by
    rw [List.dropLast_append_of_ne_nil (List.cons_ne_nil _ _)]
    rfl
  rw [recomputed, last, before, List.getLast?_concat, List.dropLast_concat]

/-! ### Turns of the loop -/

structure Turn (recompute : Recomputation) (maxLiterals : Nat) (a : Head) (k : Merge) (b : Head) : Prop where
  large : maxLiterals < a.theory.literalCount
  levels : a.theory.levels = k.lower ++ [k.second, k.top]
  weights : a.weights = k.rest ++ [k.secondWeight, k.topWeight]
  run : ∃ s, (a.theory.mergedLevel (k.top.clauses ∪ k.second.clauses)).run a.session = (.ok k.clauses, s) ∧
    (recompute a.theory k.second.clauses k.top.clauses k.secondWeight k.topWeight).run s = (.ok k.necessity, b.session)
  reweighed : b.weights = k.rest ++ [k.necessity]
  merged : b.theory = a.theory.withLevels (mergedLevels b.weights (k.lower.map (·.clauses)) k.clauses)

def Course (recompute : Recomputation) (maxLiterals : Nat) : Head → Head → Prop :=
  ReflTransGen fun a b => ∃ k, Turn recompute maxLiterals a k b

def Head.outcome (recompute : Recomputation) (maxLiterals : Nat) (h : Head) : Except Error Theory × Session :=
  (collapseBy (recomputed recompute) maxLiterals h.theory.levels.length h.theory h.weights).run h.session

theorem Turn.length_levels_lt (turn : Turn recompute maxLiterals a k b) :
    b.theory.levels.length < a.theory.levels.length := by
  rw [turn.merged]
  exact length_levels_merged turn.levels b.weights k.clauses

theorem Turn.outcome_eq (turn : Turn recompute maxLiterals a k b) :
    a.outcome recompute maxLiterals = b.outcome recompute maxLiterals := by
  obtain ⟨fuel, enough⟩ := Nat.exists_eq_add_of_lt turn.length_levels_lt
  obtain ⟨s, merged, found⟩ := turn.run
  rw [Head.outcome, enough, collapseBy_succ turn.large turn.levels, Query.run_bind, merged]
  dsimp only
  rw [turn.weights, recomputed_concat, bind_assoc, Query.run_bind, found]
  dsimp only
  rw [pure_bind, Option.elim_some, ← turn.reweighed, ← turn.merged, collapseBy_stable (Nat.le_refl _), Head.outcome]

theorem Turn.longer (turn : Turn recompute maxLiterals a k b)
    (longer : a.theory.levels.length ≤ a.weights.length) : b.theory.levels.length ≤ b.weights.length := by
  have fewer := turn.length_levels_lt
  rw [turn.weights, List.length_append] at longer
  rw [turn.reweighed, List.length_append]
  exact Nat.le_of_lt_succ (Nat.lt_of_lt_of_le fewer longer)

theorem Course.outcome_eq (course : Course recompute maxLiterals a b) :
    a.outcome recompute maxLiterals = b.outcome recompute maxLiterals := by
  induction course with
  | refl => rfl
  | tail _ turn ih =>
    obtain ⟨k, turn⟩ := turn
    exact ih.trans turn.outcome_eq

theorem exists_course_of_run (enough : a.theory.levels.length ≤ fuel)
    (longer : a.theory.levels.length ≤ a.weights.length)
    (run : (collapseBy (recomputed recompute) maxLiterals fuel a.theory a.weights).run a.session = (.ok u, s')) :
    ∃ b, Course recompute maxLiterals a b ∧ b.theory = u ∧ b.session = s' ∧
      (u.literalCount ≤ maxLiterals ∨ u.levels.length ≤ 1) := by
  induction fuel generalizing a with
  | zero =>
    cases run
    exact ⟨a, .refl, rfl, rfl, .inr (Nat.le_trans enough (Nat.zero_le 1))⟩
  | succ fuel ih =>
    rcases done_or_split maxLiterals a.theory with done | ⟨large, lower, second, top, split⟩
    · rw [collapseBy_of_done done] at run
      cases run
      exact ⟨a, .refl, rfl, rfl, done⟩
    · have two : 1 < a.theory.levels.length := by
        rw [split, List.length_append]
        exact Nat.lt_add_left lower.length Nat.one_lt_two
      obtain ⟨rest, secondWeight, topWeight, popped⟩ := exists_append_pair (Nat.lt_of_lt_of_le two longer)
      rw [collapseBy_succ large split] at run
      obtain ⟨clauses, s, merged, run⟩ := Query.of_run_bind run
      rw [popped, recomputed_concat, bind_assoc] at run
      obtain ⟨n, s₂, found, run⟩ := Query.of_run_bind run
      rw [pure_bind, Option.elim_some] at run
      have turn : Turn recompute maxLiterals a ⟨lower, second, top, rest, secondWeight, topWeight, clauses, n⟩
          ⟨a.theory.withLevels (mergedLevels (rest ++ [n]) (lower.map (·.clauses)) clauses), rest ++ [n], s₂⟩ :=
        ⟨large, split, popped, ⟨s, merged, found⟩, rfl, rfl⟩
      have fewer := turn.length_levels_lt
      obtain ⟨b, course, last⟩ := ih (Nat.le_of_lt_succ (Nat.lt_of_lt_of_le fewer enough)) (turn.longer longer) run
      exact ⟨b, .head ⟨_, turn⟩ course, last⟩

theorem exists_course (longer : a.theory.levels.length ≤ a.weights.length)
    (run : a.outcome recompute maxLiterals = (.ok u, s')) :
    ∃ b, Course recompute maxLiterals a b ∧ b.theory = u ∧ b.session = s' ∧
      (u.literalCount ≤ maxLiterals ∨ u.levels.length ≤ 1) :=
  exists_course_of_run (Nat.le_refl _) longer run

/-! ### The weights at the head -/

structure Head.Aligned (h : Head) : Prop where
  regular : h.theory.Regular
  populated : h.theory.Populated
  weights : h.weights = h.theory.weights

structure Head.Drifted (h : Head) : Prop where
  regular : h.theory.Regular
  populated : h.theory.Populated
  weights : ∃ more n, h.weights = h.theory.weights ++ more ++ [n]

theorem Head.Drifted.weights_ne (drifted : h.Drifted) : h.weights ≠ h.theory.weights := by
  obtain ⟨more, n, weights⟩ := drifted.weights
  intro same
  have length := congrArg List.length (weights.symm.trans same)
  rw [List.length_append, List.length_append, List.length_singleton] at length
  omega

structure Merge.Kept (k : Merge) : Prop where
  left : k.clauses.isEmpty = false
  above : ∀ l ∈ k.lower, l.necessity < k.necessity

namespace Turn

variable (turn : Turn recompute maxLiterals a k b)

include turn

theorem regular : b.theory.Regular := turn.merged ▸ regular_withLevels a.theory _

theorem populated : b.theory.Populated := turn.merged ▸ populated_withLevels a.theory _

theorem theory_weights : a.theory.weights = k.lower.map (·.necessity) ++ [k.second.necessity, k.top.necessity] := by
  rw [Theory.weights, turn.levels, List.map_append]
  rfl

section Aligned

variable (aligned : a.Aligned)

include aligned

theorem taken : k.rest = k.lower.map (·.necessity) ∧ k.secondWeight = k.second.necessity ∧
    k.topWeight = k.top.necessity := by
  have same := turn.weights.symm.trans (aligned.weights.trans turn.theory_weights)
  obtain ⟨rest, last⟩ := List.append_inj' same rfl
  obtain ⟨second, last⟩ := List.cons.inj last
  exact ⟨rest, second, (List.cons.inj last).1⟩

theorem theory_of_aligned : b.theory = a.theory.withLevels (k.lower ++ [⟨k.necessity, k.clauses⟩]) := by
  have weights : k.lower.map (·.necessity) ++ [k.necessity] <+: b.weights := by
    rw [turn.reweighed, (turn.taken aligned).1]
  rw [turn.merged, mergedLevels_eq weights]

theorem aligned_of_kept (kept : k.Kept) :
    b.theory.levels = k.lower ++ [⟨k.necessity, k.clauses⟩] ∧ b.Aligned := by
  have levels : b.theory.levels = k.lower ++ [⟨k.necessity, k.clauses⟩] := by
    have last : dropEmpty [⟨k.necessity, k.clauses⟩] = [⟨k.necessity, k.clauses⟩] :=
      List.filter_cons_of_pos (by simp [kept.left])
    rw [turn.theory_of_aligned aligned,
      levels_merged aligned.regular aligned.populated turn.levels kept.above, last]
  refine ⟨levels, turn.regular, turn.populated, ?_⟩
  rw [turn.reweighed, (turn.taken aligned).1, Theory.weights, levels, List.map_append]
  rfl

theorem drifted_of_empty (empty : k.clauses.isEmpty = true) : b.theory.levels = k.lower ∧ b.Drifted := by
  have ascending := aligned.regular.ascending
  rw [turn.levels] at ascending
  have levels : b.theory.levels = k.lower := by
    have lower : (ofLevels k.lower).levels = k.lower :=
      levels_ofLevels (List.pairwise_append.1 ascending).1 fun l hl =>
        aligned.populated l (turn.levels ▸ List.mem_append_left _ hl)
    have dropped : (ofLevels (k.lower ++ [⟨k.necessity, k.clauses⟩])).levels = (ofLevels k.lower).levels := by
      rw [ofLevels_concat, addAll, if_pos empty]
    rw [turn.theory_of_aligned aligned]
    exact dropped.trans lower
  refine ⟨levels, turn.regular, turn.populated, [], k.necessity, ?_⟩
  rw [turn.reweighed, (turn.taken aligned).1, Theory.weights, levels, List.append_nil]

end Aligned

/-- Where the weights have drifted away, a merged level has the lower necessity of the two, whatever is found for it. -/
theorem drifted (drifted : a.Drifted) :
    b.theory = a.theory.withLevels (k.lower ++ [⟨k.second.necessity, k.clauses⟩]) ∧ b.Drifted := by
  obtain ⟨more, n, weights⟩ := drifted.weights
  rw [turn.theory_weights, turn.weights] at weights
  have first : k.lower.map (·.necessity) ++ [k.second.necessity] <+: k.rest := by
    have whole : k.lower.map (·.necessity) ++ [k.second.necessity] <+: k.rest ++ [k.secondWeight, k.topWeight] :=
      ⟨k.top.necessity :: more ++ [n], by rw [weights]; simp⟩
    refine List.prefix_of_prefix_length_le whole (List.prefix_append _ _) ?_
    have length := congrArg List.length weights
    simp only [List.length_append, List.length_map, List.length_cons, List.length_nil] at length ⊢
    omega
  have weights : k.lower.map (·.necessity) ++ [k.second.necessity] <+: b.weights := by
    rw [turn.reweighed]
    exact first.trans (List.prefix_append _ _)
  have theory : b.theory = a.theory.withLevels (k.lower ++ [⟨k.second.necessity, k.clauses⟩]) := by
    rw [turn.merged, mergedLevels_eq weights]
  refine ⟨theory, turn.regular, turn.populated, ?_⟩
  have above (l : Level) (hl : l ∈ k.lower) := lt_second drifted.regular turn.levels hl
  have lowest := weights_merged drifted.regular drifted.populated turn.levels above k.clauses
  rw [← theory] at lowest
  obtain ⟨more, rest⟩ := lowest.trans first
  exact ⟨more, k.necessity, by rw [turn.reweighed, rest]⟩

end Turn

def KeptCourse (recompute : Recomputation) (maxLiterals : Nat) : Head → Head → Prop :=
  ReflTransGen fun a b => ∃ k : Merge, k.Kept ∧ Turn recompute maxLiterals a k b

theorem KeptCourse.aligned (course : KeptCourse recompute maxLiterals a b) (aligned : a.Aligned) : b.Aligned := by
  induction course with
  | refl => exact aligned
  | tail _ turn ih =>
    obtain ⟨k, kept, turn⟩ := turn
    exact (turn.aligned_of_kept ih kept).2

theorem Course.drifted (course : Course recompute maxLiterals a b) (drifted : a.Drifted) : b.Drifted := by
  induction course with
  | refl => exact drifted
  | tail _ turn ih =>
    obtain ⟨k, turn⟩ := turn
    exact (turn.drifted ih).2

def head (t : Theory) (s : Session) : Head := ⟨t, t.weights, s⟩

theorem aligned_head (regular : t.Regular) (populated : t.Populated) (s : Session) : (t.head s).Aligned :=
  ⟨regular, populated, rfl⟩

/-- However the necessities of merged levels are found, the loop goes from turn to turn. As long as something has been
left of each merged level, the weights at the head are the necessities of the theory, so that each turn combines those
of the levels it merges and the merged level gets what is found. Once nothing was left, the weights are more than the
necessities for good, and merged levels get the lower necessity of the two. -/
theorem recomputed_weights (recompute : Recomputation) (maxLiterals : Nat) (t : Theory) (regular : t.Regular)
    (populated : t.Populated) (s : Session) :
    (∀ count, (t.collapseCounted maxLiterals count).run s =
      (t.head s).outcome (fun t => t.mergedNecessity count) maxLiterals) ∧
    (∀ h, Course recompute maxLiterals (t.head s) h →
      (t.head s).outcome recompute maxLiterals = h.outcome recompute maxLiterals) ∧
    (∀ u s', (t.head s).outcome recompute maxLiterals = (.ok u, s') →
      ∃ h, Course recompute maxLiterals (t.head s) h ∧ h.theory = u ∧ h.session = s' ∧
        (u.literalCount ≤ maxLiterals ∨ u.levels.length ≤ 1)) ∧
    ∀ h, KeptCourse recompute maxLiterals (t.head s) h → h.weights = h.theory.weights ∧
      ∀ k b, Turn recompute maxLiterals h k b →
        (k.secondWeight = k.second.necessity ∧ k.topWeight = k.top.necessity) ∧
        (k.Kept → b.theory.levels = k.lower ++ [⟨k.necessity, k.clauses⟩] ∧ b.weights = b.theory.weights) ∧
        (k.clauses.isEmpty = true → b.theory.levels = k.lower ∧
          ∀ h', Course recompute maxLiterals b h' → h'.weights ≠ h'.theory.weights ∧
            ∀ k' b', Turn recompute maxLiterals h' k' b' →
              b'.theory = h'.theory.withLevels (k'.lower ++ [⟨k'.second.necessity, k'.clauses⟩])) := by
  have start := aligned_head regular populated s
  refine ⟨fun count => ?_, fun h course => course.outcome_eq, fun u s' run => ?_, fun h course => ?_⟩
  · rw [collapseCounted, collapseUpTo_eq, mergedWeights_some]
    rfl
  · exact exists_course (Nat.le_of_eq (List.length_map _).symm) run
  · have aligned := course.aligned start
    refine ⟨aligned.weights, fun k b turn => ⟨(turn.taken aligned).2, fun kept => ?_, fun empty => ?_⟩⟩
    · obtain ⟨levels, aligned'⟩ := turn.aligned_of_kept aligned kept
      exact ⟨levels, aligned'.weights⟩
    · obtain ⟨levels, drifted⟩ := turn.drifted_of_empty aligned empty
      refine ⟨levels, fun h' course' => ?_⟩
      have drifted' := course'.drifted drifted
      exact ⟨drifted'.weights_ne, fun k' b' turn' => (turn'.drifted drifted').1⟩

def midway : Recomputation := fun _ _ _ secondWeight topWeight =>
  Query.ofExcept .necessity (Necessity.ofFloat ((secondWeight.value + topWeight.value) / 2))

def independent : Theory :=
  ofRules [(.unit ⟨"a", [], true⟩, ⟨0x3fd0000000000000⟩), (.unit ⟨"b", [], true⟩, ⟨0x3fe0000000000000⟩),
    (.unit ⟨"c", [], true⟩, ⟨0x3fe8000000000000⟩)]

def halfway : Merge where
  lower := [⟨⟨0x3fd0000000000000⟩, .singleton (.unit ⟨"a", [], true⟩)⟩]
  second := ⟨⟨0x3fe0000000000000⟩, .singleton (.unit ⟨"b", [], true⟩)⟩
  top := ⟨⟨0x3fe8000000000000⟩, .singleton (.unit ⟨"c", [], true⟩)⟩
  rest := [⟨0x3fd0000000000000⟩]
  secondWeight := ⟨0x3fe0000000000000⟩
  topWeight := ⟨0x3fe8000000000000⟩
  clauses := .ofList [.unit ⟨"b", [], true⟩, .unit ⟨"c", [], true⟩]
  necessity := ⟨0x3fe4000000000000⟩

theorem recomputed_weights_independent : ∃ b, Turn midway 1 (independent.head {}) halfway b ∧
    (halfway.secondWeight = halfway.second.necessity ∧ halfway.topWeight = halfway.top.necessity) ∧
    b.theory.levels = halfway.lower ++ [⟨⟨0x3fe4000000000000⟩, halfway.clauses⟩] ∧ b.weights = b.theory.weights := by
  have turn : Turn midway 1 (independent.head {}) halfway
      ⟨independent.withLevels (halfway.lower ++ [⟨halfway.necessity, halfway.clauses⟩]),
        halfway.rest ++ [halfway.necessity],
        ((independent.mergedLevel (halfway.top.clauses ∪ halfway.second.clauses)).run {}).2⟩ :=
    ⟨by decide +kernel, by decide +kernel, by decide +kernel,
      ⟨_, Prod.ext (by decide +kernel) rfl, Prod.ext (by decide +kernel) rfl⟩, rfl, rfl⟩
  have kept : halfway.Kept := ⟨by decide +kernel, by decide +kernel⟩
  obtain ⟨-, -, -, course⟩ :=
    recomputed_weights midway 1 independent (regular_ofRules _) (populated_ofRules _) {}
  obtain ⟨taken, stored, -⟩ := (course _ .refl).2 halfway _ turn
  exact ⟨_, turn, taken, stored kept⟩

def emptied : Merge where
  lower := [⟨⟨0x3fe3800000000000⟩, .singleton (.unit ⟨"a", [], true⟩)⟩,
    ⟨⟨0x3fe8000000000000⟩, .singleton (.unit ⟨"b", [], true⟩)⟩]
  second := ⟨⟨0x3fec000000000000⟩, .singleton (.unit ⟨"c", [], true⟩)⟩
  top := ⟨⟨0x3fee000000000000⟩, .singleton (.unit ⟨"c", [], true⟩)⟩
  rest := [⟨0x3fe3800000000000⟩, ⟨0x3fe8000000000000⟩]
  secondWeight := ⟨0x3fec000000000000⟩
  topWeight := ⟨0x3fee000000000000⟩
  clauses := ∅
  necessity := ⟨0x3fed000000000000⟩

def emptiedHead : Head where
  theory := overshadowed.withLevels emptied.lower
  weights := emptied.rest ++ [emptied.necessity]
  session := ((overshadowed.mergedLevel (emptied.top.clauses ∪ emptied.second.clauses)).run {}).2

def displaced : Merge where
  lower := []
  second := ⟨⟨0x3fe3800000000000⟩, .singleton (.unit ⟨"a", [], true⟩)⟩
  top := ⟨⟨0x3fe8000000000000⟩, .singleton (.unit ⟨"b", [], true⟩)⟩
  rest := [⟨0x3fe3800000000000⟩]
  secondWeight := ⟨0x3fe8000000000000⟩
  topWeight := ⟨0x3fed000000000000⟩
  clauses := .ofList [.unit ⟨"a", [], true⟩, .unit ⟨"b", [], true⟩]
  necessity := ⟨0x3fea800000000000⟩

def displacedHead : Head where
  theory := emptiedHead.theory.withLevels [⟨displaced.second.necessity, displaced.clauses⟩]
  weights := displaced.rest ++ [displaced.necessity]
  session := ((emptiedHead.theory.mergedLevel (displaced.top.clauses ∪ displaced.second.clauses)).run
    emptiedHead.session).2

/-- Two levels are merged with necessities that are not theirs, and the merged level does not get what is found, nor
what would have been found for them. -/
theorem overshadowed_displaces : overshadowed.isGround = true ∧
    Course midway 1 (overshadowed.head {}) emptiedHead ∧ Turn midway 1 emptiedHead displaced displacedHead ∧
    emptiedHead.weights ≠ emptiedHead.theory.weights ∧
    (displaced.secondWeight ≠ displaced.second.necessity ∧ displaced.topWeight ≠ displaced.top.necessity) ∧
    displacedHead.theory.levels = [⟨displaced.second.necessity, displaced.clauses⟩] ∧
    displaced.clauses.isEmpty = false ∧ displaced.necessity ≠ displaced.second.necessity ∧
    ((overshadowed.head {}).outcome midway 1).1.map Theory.levels = .ok displacedHead.theory.levels ∧
    ((midway emptiedHead.theory displaced.second.clauses displaced.top.clauses displaced.second.necessity
      displaced.top.necessity).run {}).1 = .ok ⟨0x3fe5c00000000000⟩ := by
  have first : Turn midway 1 (overshadowed.head {}) emptied emptiedHead :=
    ⟨by decide +kernel, by decide +kernel, by decide +kernel,
      ⟨_, Prod.ext (by decide +kernel) rfl, Prod.ext (by decide +kernel) rfl⟩, rfl, rfl⟩
  have second : Turn midway 1 emptiedHead displaced displacedHead :=
    ⟨by decide +kernel, by decide +kernel, by decide +kernel,
      ⟨_, Prod.ext (by decide +kernel) rfl, Prod.ext (by decide +kernel) rfl⟩, rfl, rfl⟩
  exact ⟨by decide +kernel, .single ⟨emptied, first⟩, second, by decide +kernel, by decide +kernel, by decide +kernel,
    by decide +kernel, by decide +kernel, by decide +kernel, by decide +kernel⟩

end Defeasible.Theory
