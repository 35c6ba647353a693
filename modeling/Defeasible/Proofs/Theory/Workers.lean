import Mathlib.Logic.Relation
import Defeasible.Proofs.RoundTrip
import Defeasible.Proofs.Theory.Coverage

/-! Workers that share out rules. They ask in any order, in a session that they share, and each appends what it has
found when its share is done. Whatever the order, and however many workers there are, the sorted rules are the same. -/

namespace Defeasible

inductive Worker
  | busy (left found : List DefaultRule)
  | ended

structure Crew where
  workers : List Worker
  covered : List DefaultRule := []
  failure : Option Error := none
  session : Session

namespace Worker

def owes (implied : DefaultRule → Bool) : Worker → List DefaultRule
  | busy left found => found ++ left.filter implied
  | ended => []

def left : Worker → List DefaultRule
  | busy left _ => left
  | ended => []

def work : Worker → Nat
  | busy left _ => left.length + 1
  | ended => 0

end Worker

namespace Theory

def crew (t : Theory) (examples : List DefaultRule) (s : Session) : Crew :=
  let workers := max t.settings.workers.value 1
  let size := (examples.length + workers - 1) / workers
  { workers := (shares size examples.length examples).map (.busy · []), session := s }

end Theory

namespace Crew

open Worker

/-- One worker asks for its next rule, gives up after a failure, or appends what it has found. -/
inductive Step (t : Theory) : Crew → Crew → Prop
  | asks {before after : List Worker} {left found covered : List DefaultRule} {failure : Option Error}
      {s s' : Session} {r : DefaultRule} {b : Bool} (asked : (t.covers r).run s = (.ok b, s')) :
    Step t ⟨before ++ busy (r :: left) found :: after, covered, failure, s⟩
      ⟨before ++ busy left (if b then found ++ [r] else found) :: after, covered, failure, s'⟩
  | fails {before after : List Worker} {left found covered : List DefaultRule} {failure : Option Error}
      {s s' : Session} {r : DefaultRule} {e : Error} (asked : (t.covers r).run s = (.error e, s')) :
    Step t ⟨before ++ busy (r :: left) found :: after, covered, failure, s⟩
      ⟨before ++ ended :: after, covered, failure.or (some e), s'⟩
  | appends {before after : List Worker} {found covered : List DefaultRule} {failure : Option Error} {s : Session} :
    Step t ⟨before ++ busy [] found :: after, covered, failure, s⟩
      ⟨before ++ ended :: after, covered ++ found, failure, s⟩

def Ended (crew : Crew) : Prop := ∀ worker ∈ crew.workers, worker = ended

def result (crew : Crew) : Except Error (List DefaultRule) :=
  match crew.failure with
  | some e => .error e
  | none => .ok (stableSort Theory.before crew.covered)

variable {t : Theory} {crew crew' : Crew}

/-! ### Progress -/

def work (crew : Crew) : Nat := crew.workers.foldr (fun worker n => worker.work + n) 0

theorem work_append (before : List Worker) (worker : Worker) (after : List Worker) :
    (before ++ worker :: after).foldr (fun worker n => worker.work + n) 0 =
      (before ++ after).foldr (fun worker n => worker.work + n) 0 + worker.work := by
  induction before with
  | nil => exact Nat.add_comm _ _
  | cons first before ih =>
    rw [List.cons_append, List.foldr_cons, ih, List.cons_append, List.foldr_cons, Nat.add_assoc]

theorem Step.work_lt (step : Step t crew crew') : crew'.work < crew.work := by
  unfold Crew.work
  cases step with
  | asks _ =>
    rw [work_append, work_append]
    exact Nat.add_lt_add_left (Nat.lt_succ_self _) _
  | fails _ =>
    rw [work_append, work_append]
    exact Nat.add_lt_add_left (Nat.succ_pos _) _
  | appends =>
    rw [work_append, work_append]
    exact Nat.add_lt_add_left (Nat.succ_pos _) _

theorem acc_step (t : Theory) (crew : Crew) : Acc (fun later now => Step t now later) crew :=
  Subrelation.accessible (fun step => step.work_lt) ((measure work).wf.apply crew)

theorem exists_step (busy_worker : ¬ crew.Ended) : ∃ crew', Step t crew crew' := by
  obtain ⟨workers, covered, failure, s⟩ := crew
  obtain ⟨worker, busy_here⟩ := not_forall.1 busy_worker
  obtain ⟨mem, not_ended⟩ := Classical.not_imp.1 busy_here
  obtain ⟨before, after, rfl⟩ := List.append_of_mem mem
  cases worker with
  | ended => exact absurd rfl not_ended
  | busy left found =>
    cases left with
    | nil => exact ⟨_, .appends⟩
    | cons r left =>
      rcases asked : (t.covers r).run s with ⟨e | b, s'⟩
      · exact ⟨_, .fails asked⟩
      · exact ⟨_, .asks asked⟩

/-! ### What a crew collects -/

/-- What holds of a crew at all times: nothing is lost and nothing is found twice. -/
structure Sound (implied : DefaultRule → Bool) (examples : List DefaultRule) (crew : Crew) : Prop where
  truthful : crew.session.Truthful
  failure : crew.failure = none
  left : ∀ worker ∈ crew.workers, ∀ r ∈ worker.left, r ∈ examples
  collected : (crew.covered ++ crew.workers.flatMap (owes implied)).Perm (examples.filter implied)

variable {implied : DefaultRule → Bool} {examples : List DefaultRule}

theorem Sound.result_eq (sound : crew.Sound implied examples) (all_ended : crew.Ended) :
    ∃ found, crew.result = .ok (stableSort Theory.before found) ∧ found.Perm (examples.filter implied) := by
  refine ⟨crew.covered, by rw [result, sound.failure], ?_⟩
  have nothing : crew.workers.flatMap (owes implied) = [] :=
    List.flatMap_eq_nil_iff.2 fun worker mem => by rw [all_ended worker mem]; rfl
  have collected := sound.collected
  rwa [nothing, List.append_nil] at collected

theorem sound_crew (implied : DefaultRule → Bool) (examples : List DefaultRule) {s : Session}
    (truthful : s.Truthful) : (t.crew examples s).Sound implied examples := by
  unfold Theory.crew
  set workers := max t.settings.workers.value 1
  set size := (examples.length + workers - 1) / workers
  have flatten : (Theory.shares size examples.length examples).flatten = examples := by
    by_cases none : examples = []
    · rw [none]
      rfl
    · exact Theory.flatten_shares (Theory.size_pos (by omega) none) (Nat.le_refl _)
  refine ⟨truthful, rfl, fun worker mem r hr => ?_, ?_⟩
  · obtain ⟨share, share_mem, rfl⟩ := List.mem_map.1 mem
    rw [← flatten]
    exact List.mem_flatten_of_mem share_mem hr
  · have parts := congrArg (List.filter implied) flatten
    rw [List.filter_flatten] at parts
    rw [List.nil_append, List.flatMap_map]
    exact .of_eq parts

theorem Step.sound (step : Step t crew crew')
    (covers : ∀ r ∈ examples, (t.covers r).Meets (· = implied r) fun _ => False)
    (sound : crew.Sound implied examples) : crew'.Sound implied examples := by
  obtain ⟨truthful, failure, left_mem, collected⟩ := sound
  cases step with
  | @asks before after left found covered failure s s' r b asked =>
    rw [List.forall_mem_append, List.forall_mem_cons] at left_mem
    obtain ⟨left_before, left_here, left_after⟩ := left_mem
    have here : r ∈ examples := left_here r List.mem_cons_self
    obtain ⟨_, _, run, truthful', rfl⟩ := (covers r here).result truthful
    rw [asked] at run
    cases run
    have owed : (busy left (if implied r then found ++ [r] else found)).owes implied =
        (busy (r :: left) found).owes implied := by
      rw [owes, owes, List.filter_cons]
      split
      · rw [List.append_assoc, List.singleton_append]
      · rfl
    refine ⟨truthful', failure, ?_, ?_⟩
    · rw [List.forall_mem_append, List.forall_mem_cons]
      exact ⟨left_before, fun r' hr' => left_here r' (List.mem_cons_of_mem r hr'), left_after⟩
    · rw [List.flatMap_append, List.flatMap_cons] at collected ⊢
      rwa [owed]
  | @fails before after left found covered failure s s' r e asked =>
    have here : r ∈ examples := left_mem _ List.mem_append_cons_self r List.mem_cons_self
    obtain ⟨_, _, run, -⟩ := (covers r here).result truthful
    rw [asked] at run
    cases run
  | @appends before after found covered failure s =>
    rw [List.forall_mem_append, List.forall_mem_cons] at left_mem
    refine ⟨truthful, failure, ?_, ?_⟩
    · rw [List.forall_mem_append, List.forall_mem_cons]
      exact ⟨left_mem.1, nofun, left_mem.2.2⟩
    · have owed : (busy [] found).owes implied = found := List.append_nil found
      rw [List.flatMap_append, List.flatMap_cons, owed] at collected
      rw [List.flatMap_append, List.flatMap_cons, owes, List.nil_append, List.append_assoc]
      exact (List.perm_append_left_iff _ |>.2 (List.perm_append_comm_assoc ..)).trans collected

theorem sound_of_reachable (covers : ∀ r ∈ examples, (t.covers r).Meets (· = implied r) fun _ => False)
    (reached : Relation.ReflTransGen (Step t) crew crew') (sound : crew.Sound implied examples) :
    crew'.Sound implied examples := by
  induction reached with
  | refl => exact sound
  | tail _ step ih => exact step.sound covers ih

end Crew

namespace Theory

variable {implied : DefaultRule → Bool} {found found' : List DefaultRule}

theorem stableSort_eq_of_perm (spelled : ∀ r ∈ found, r.Spelled) (perm : found'.Perm found) :
    stableSort before found' = stableSort before found := by
  have perm' := stableSort_perm before found'
  have perm'' := stableSort_perm before found
  refine @List.Perm.eq_of_pairwise _ (fun r r' => before r r' = true) _ _ (fun r r' hr hr' le ge => ?_)
    (pairwise_stableSort before_total before_trans _) (pairwise_stableSort before_total before_trans _)
    (perm'.trans (perm.trans perm''.symm))
  have spelled_left : r.Spelled := spelled r (perm.mem_iff.1 (perm'.mem_iff.1 hr))
  have spelled_right : r'.Spelled := spelled r' (perm''.mem_iff.1 hr')
  refine DefaultRule.legible.text_injective r r' spelled_left spelled_right (Std.LawfulEqOrd.eq_of_compare ?_)
  rw [before, Std.OrientedOrd.eq_swap] at ge
  revert le ge
  rw [before]
  cases compare r.text r'.text <;> decide

/-- The covered rules are those that are implied, each as often as it is given, sorted by their texts. It does not
matter how many workers there are and in which order they append what they find, and they end. No implied rule is left
out without a question. -/
theorem coverage_pointwise (t : Theory) (regular : t.Regular) (populated : t.Populated)
    (ground : ∀ c ∈ t.clauses, c.isGround = true) (probable : t.settings.Probable)
    (untimed : t.settings.solveLimit? = none) (consistent : ∃ found, ((t.solve ∅).run {}).1 = .ok (some found))
    (examples : List DefaultRule) (ground_examples : ∀ r ∈ examples, r.Ground)
    (parsed : ∀ r ∈ examples, ∃ s, DefaultRule.parse s = .ok r) :
    ∃ (implied : DefaultRule → Bool) (found : List DefaultRule),
      (∀ r ∈ examples, (t.implies r.evidence r.consequent).Answers t.settings (implied r)) ∧
      found.Perm (examples.filter implied) ∧ found.Pairwise (fun r r' => (compare r.text r'.text).isLE = true) ∧
      ∀ workers : Nat,
        let t := t.withSettings { t.settings with workers := { t.settings.workers with value := workers } }
        (t.covered examples).Answers t.settings found ∧
        ∃ u : Theory, t.withoutDrowned.Answers t.settings u ∧
          (∀ r ∈ examples, implied r = true → mayImply u.literals r = true) ∧
          ∀ s : Session, s.Truthful → Acc (fun later now => Crew.Step u.settle now later) (u.settle.crew examples s) ∧
            ∀ crew, Relation.ReflTransGen (Crew.Step u.settle) (u.settle.crew examples s) crew →
              (crew.Ended → crew.result = .ok found) ∧ (¬ crew.Ended → ∃ crew', Crew.Step u.settle crew crew') := by
  classical
  have nothing : ∀ l ∈ (∅ : Evidence), l.isGround = true := fun l hl => absurd hl (OrdSet.not_mem_empty l)
  obtain ⟨n, preferred⟩ : ∃ n, t.Preferred ∅ n := by
    obtain ⟨found, solved⟩ := consistent
    have prefers := solve_meets regular ground (solves_within probable) nothing
    exact ⟨found.2, (prefers.of_run (Session.truthful_new _) (Prod.ext solved rfl)).1⟩
  have ground_rule (r : DefaultRule) (hr : r ∈ examples) : ∀ l ∈ r.evidence, l.isGround = true :=
    List.all_eq_true.1 (ground_examples r hr).antecedent
  refine ⟨fun r => decide (t.Entails r.evidence r.consequent),
    stableSort before (examples.filter fun r => decide (t.Entails r.evidence r.consequent)), fun r hr => ?_,
    stableSort_perm _ _, pairwise_stableSort before_total before_trans _, fun workers => ?_⟩
  · exact implies_answers regular ground probable (ground_rule r hr) (ground_examples r hr).consequent
      decide_eq_true_iff
  intro t'
  have same : t'.Equivalent t := equivalent_withSettings t _
  have regular' : t'.Regular := regular.withSettings _
  have probable' : t'.settings.Probable := ⟨probable.lean, probable.bias⟩
  have untimed' : t'.settings.solveLimit? = none := untimed
  obtain ⟨u, undrowned⟩ := t'.exists_undrowned
  have implied_iff (r : DefaultRule) : decide (t.Entails r.evidence r.consequent) = true ↔
      u.Entails r.evidence r.consequent := by
    rw [decide_eq_true_iff, undrowned.entails_iff regular' populated (same.symm.preferred preferred),
      same.entails_iff]
  have covers (r : DefaultRule) (hr : r ∈ examples) :
      (u.settle.covers r).Meets (· = decide (t.Entails r.evidence r.consequent)) fun _ => False := by
    have ground' : ∀ c ∈ u.settle.clauses, c.isGround = true := fun c hc =>
      ground c (undrowned.mem_clauses regular' populated hc)
    have solves : u.settle.Solves fun _ => False := by
      have settings : u.settle.settings = t'.settings := undrowned.settings_eq
      exact solves_of_untimed (settings ▸ probable') (settings ▸ untimed')
    exact covers_meets (undrowned.regular regular').settle ground' solves
      (fun r => (implied_iff r).trans (equivalent_settle u).entails_iff.symm) (ground_examples r hr)
  have covered := covered_meets regular' populated ground probable' undrowned implied_iff ground_examples
  have reduced := (withoutDrowned_meets regular' ground (solves_within probable')).imp fun _ found =>
    found.unique undrowned
  refine ⟨covered.unhindered untimed', u, reduced.unhindered untimed',
    fun r _ implied => mayImply_of_entails ((implied_iff r).1 implied),
    fun s truthful => ⟨Crew.acc_step _ _, fun crew reached => ⟨fun ended => ?_, Crew.exists_step⟩⟩⟩
  have sound := Crew.sound_of_reachable covers reached (Crew.sound_crew _ examples truthful)
  obtain ⟨found, result, perm⟩ := sound.result_eq ended
  rw [result]
  refine congrArg Except.ok (stableSort_eq_of_perm (fun r hr => ?_) perm)
  obtain ⟨s, read⟩ := parsed r (List.mem_filter.1 hr).1
  exact DefaultRule.spelled_of_parse read

theorem coverage_pointwise_penguins :
    let flying (bird : String) : DefaultRule := ⟨.unit ⟨bird, [], true⟩, .unit ⟨"flies", [], bird == "bird"⟩⟩
    ∀ workers : Nat, ∃ s',
      ((penguins.withSettings { workers := { ({} : Settings).workers with value := workers } }).covered
        [flying "penguin", flying "stone", flying "bird"]).run {} = (.ok [flying "bird", flying "penguin"], s') := by
  intro flying workers
  obtain ⟨implied, found, -, -, -, same⟩ := coverage_pointwise penguins regular_penguins
    (populated_ofStrata _) (by decide +kernel) Settings.probable_default rfl
    ⟨(∅, .ofLevel 0 2), by decide +kernel⟩ [flying "penguin", flying "stone", flying "bird"] (by decide +kernel)
    fun r hr => ⟨r.text, by revert r; decide +kernel⟩
  have run (workers : Nat) := (same workers).1.run rfl (Session.truthful_new fun _ _ => 0)
  have alone : (((penguins.withSettings { workers := { ({} : Settings).workers with value := 1 } }).covered
      [flying "penguin", flying "stone", flying "bird"]).run {}).1 = .ok [flying "bird", flying "penguin"] := by
    decide +kernel
  obtain ⟨s', first, -⟩ := run 1
  obtain rfl : found = [flying "bird", flying "penguin"] := by
    refine Except.ok.inj (Eq.trans ?_ alone)
    exact (congrArg Prod.fst first).symm
  obtain ⟨s', others, -⟩ := run workers
  exact ⟨s', others⟩

end Theory

end Defeasible
