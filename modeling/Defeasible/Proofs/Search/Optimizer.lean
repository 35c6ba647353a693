import Defeasible.Proofs.Search.Relaxation
import Defeasible.Proofs.StableSort

/-! The optimizer finds a model of least penalty. A node of its search answers for the models that satisfy
the soft clauses it assumes and falsify those it has given up, though it only assumes the former: what has
been given up is a lower bound for these models, and the two branches of a node share its models out between
them. -/

namespace Defeasible.Search

structure Costed.Sound (n : Nat) (hard : List (List Lit)) (soft : List SoftClause) (best : Costed) :
    Prop where
  atoms : best.model.map Lit.atom = List.range' 1 n
  models : Models (Valuation.ofModel best.model) hard
  cost_eq : best.cost = penalty (Valuation.ofModel best.model) (soft.map SoftClause.weighed)

def AtMost (best : Option Costed) (cost : Nat) : Prop := ∃ found ∈ best, found.cost ≤ cost

theorem AtMost.mono {best : Option Costed} {c d : Nat} (h : AtMost best c) (le : c ≤ d) :
    AtMost best d := by
  obtain ⟨found, mem, le'⟩ := h
  exact ⟨found, mem, Nat.le_trans le' le⟩

/-- The models that a node of the search answers for. -/
structure Node (hard : List (List Lit)) (kept dropped : List SoftClause) (v : Valuation) : Prop where
  models : Models v hard
  satisfies : ∀ s ∈ kept, Satisfies v s.literals
  falsifies : ∀ s ∈ dropped, ¬ Satisfies v s.literals

namespace Node

variable {hard : List (List Lit)} {kept dropped rest soft : List SoftClause} {v : Valuation}

theorem totalWeight_le (node : Node hard kept dropped v) (perm : (kept ++ dropped ++ rest).Perm soft) :
    totalWeight dropped ≤ penalty v (soft.map SoftClause.weighed) := by
  rw [← penalty_perm v (perm.map SoftClause.weighed), List.map_append, List.map_append, penalty_append,
    penalty_append, penalty_eq_totalWeight node.falsifies]
  omega

theorem split (node : Node hard kept dropped v) (s : SoftClause) :
    Node hard (kept ++ [s]) dropped v ∨ Node hard kept (dropped ++ [s]) v := by
  by_cases satisfied : Satisfies v s.literals
  · refine .inl ⟨node.models, fun t ht => ?_, node.falsifies⟩
    rcases List.mem_append.1 ht with ht | ht
    · exact node.satisfies t ht
    · rwa [List.mem_singleton.1 ht]
  · refine .inr ⟨node.models, node.satisfies, fun t ht => ?_⟩
    rcases List.mem_append.1 ht with ht | ht
    · exact node.falsifies t ht
    · rwa [List.mem_singleton.1 ht]

theorem root (models : Models v hard) : Node hard [] [] v :=
  ⟨models, fun _ h => absurd h List.not_mem_nil, fun _ h => absurd h List.not_mem_nil⟩

end Node

namespace Optimizer

inductive Call
  | addHard (clause : List Lit)
  | optimize

def Call.clauses : Call → List (List Lit)
  | addHard clause => [clause]
  | optimize => []

def perform (o : Optimizer) : Call → Except Fault Optimizer
  | .addHard clause => o.addHard clause
  | .optimize => .ok (o.optimize .never).2

def run (o : Optimizer) (calls : List Call) : Except Fault Optimizer := calls.foldlM perform o

variable {settings : Settings} {n m : Nat} {hard : List (List Lit)} {soft : List SoftClause} {s : State}

section Improve

variable (rel : Relaxed n m hard soft) (ready : s.Ready settings (problem hard soft) m)
  (total : ∀ atom, s.HasAtom atom → s.value? atom ≠ none)

theorem ofModel_modelOf (n : Nat) (s : State) :
    ∀ atom ≤ n, Valuation.ofModel s.valuation atom = Valuation.ofModel (modelOf n s) atom := by
  intro atom le
  simp only [Valuation.ofModel, modelOf, List.mem_filter, decide_eq_true_eq, le, and_true]

include rel ready total in
theorem costOf_eq :
    costOf soft s = penalty (Valuation.ofModel s.valuation) (soft.map SoftClause.weighed) := by
  have known (t : SoftClause) (ht : t ∈ soft) : ∀ l ∈ t.literals, s.HasAtom l.atom := by
    have le : n ≤ m := Nat.le_trans (Nat.le_of_lt (rel.relaxation_gt t ht)) (rel.relaxation_le t ht)
    exact ready.hasAtom ((rel.soft_over t ht).mono le)
  unfold costOf
  clear rel ready
  induction soft with
  | nil => rfl
  | cons t soft ih =>
    have rest := ih fun u hu => known u (List.mem_cons_of_mem t hu)
    have same : (t.literals.any fun l => s.litValue? l = some true) = true ↔
        Satisfies (Valuation.ofModel s.valuation) t.literals := by
      rw [List.any_eq_true]
      refine exists_congr fun l => and_congr_right fun hl => ?_
      rw [decide_eq_true_iff, State.holds_valuation total (known t List.mem_cons_self l hl)]
    rw [List.filter_cons, List.map_cons, SoftClause.weighed, penalty, ← rest]
    by_cases satisfied : Satisfies (Valuation.ofModel s.valuation) t.literals
    · rw [if_pos satisfied, Nat.zero_add, same.2 satisfied]
      rfl
    · rw [if_neg satisfied, Bool.eq_false_iff.2 (mt same.1 satisfied)]
      rfl

include rel ready total in
theorem sound_modelOf (models : Models (Valuation.ofModel s.valuation) (problem hard soft)) :
    Costed.Sound n hard soft ⟨modelOf n s, costOf soft s⟩ where
  atoms := by
    have filtered : (modelOf n s).map Lit.atom = (s.valuation.map Lit.atom).filter (· ≤ n) := by
      rw [modelOf, List.filter_map]
      rfl
    have kept : (List.range' 1 n).filter (· ≤ n) = List.range' 1 n :=
      List.filter_eq_self.2 fun a ha => by
        rw [List.mem_range'_1] at ha
        simp only [decide_eq_true_eq]
        omega
    have cut : (List.range' (1 + n) (m - n)).filter (· ≤ n) = [] :=
      List.filter_eq_nil_iff.2 fun a ha => by
        rw [List.mem_range'_1] at ha
        simp only [decide_eq_true_eq]
        omega
    obtain ⟨k, rfl⟩ := Nat.exists_eq_add_of_le rel.le
    rw [Nat.add_sub_cancel_left] at cut
    rw [filtered, State.atoms_valuation total, ready.atomCount, ← List.range'_append_1, List.filter_append,
      kept, cut, List.append_nil]
  models := (models_congr (ofModel_modelOf n s) rel.hard_over).1
    (models.of_subset (List.subset_append_left _ _))
  cost_eq := by
    rw [costOf_eq rel ready total]
    apply penalty_congr (ofModel_modelOf n s)
    intro c hc
    obtain ⟨t, ht, rfl⟩ := List.mem_map.1 hc
    exact rel.soft_over t ht

theorem improve_sound {best : Option Costed} (found : Costed.Sound n hard soft ⟨modelOf n s, costOf soft s⟩)
    (sound : ∀ b ∈ best, b.Sound n hard soft) : ∀ b ∈ improve n soft s best, b.Sound n hard soft := by
  unfold improve
  dsimp only
  split
  · split
    · rintro b ⟨⟩
      exact found
    · exact sound
  · rintro b ⟨⟩
    exact found

theorem improve_atMost {best : Option Costed} {c : Nat} (h : costOf soft s ≤ c ∨ AtMost best c) :
    AtMost (improve n soft s best) c := by
  unfold improve
  dsimp only
  split
  · next found =>
    split
    · next less =>
      refine ⟨_, rfl, h.elim id fun ⟨b, hb, le⟩ => ?_⟩
      cases hb
      exact Nat.le_trans (Nat.le_of_lt less) le
    · next notLess =>
      refine h.elim (fun le => ⟨found, rfl, ?_⟩) id
      exact Nat.le_trans (Nat.le_of_not_lt notLess) le
  · refine ⟨_, rfl, h.elim id fun ⟨b, hb, _⟩ => ?_⟩
    cases hb

end Improve

/-- What a node of the search comes to: its models cost no less than the best one that is known then. -/
structure Explores (settings : Settings) (n m : Nat) (hard : List (List Lit))
    (soft kept dropped : List SoftClause) (best : Option Costed)
    (r : Except Error Bool × State × Option Costed) : Prop where
  finished : r.1 = .ok false
  ready : r.2.1.Ready settings (problem hard soft) m
  sound : ∀ found ∈ r.2.2, found.Sound n hard soft
  improves : ∀ c, AtMost best c → AtMost r.2.2 c
  covers : ∀ v, Node hard kept dropped v → AtMost r.2.2 (penalty v (soft.map SoftClause.weighed))

structure Stops (settings : Settings) (m : Nat) (hard : List (List Lit)) (soft : List SoftClause)
    (deadline : Deadline) (r : Except Error Bool × State × Option Costed) : Prop where
  stopped : r.1 = .ok true
  ready : r.2.1.Ready settings (problem hard soft) m
  late : ∃ i, deadline i = true

def branches (n : Nat) (soft : List SoftClause) (deadline : Deadline) (s : State) (assumptions : List Lit)
    (committed : Nat) (best : Option Costed) : List SoftClause → Except Error Bool × State × Option Costed
  | [] => (.ok false, s, best)
  | t :: rest =>
    match branch n soft deadline rest s (assumptions ++ [t.firm]) committed best with
    | (.error e, s, best) => (.error e, s, best)
    | (.ok true, s, best) => (.ok true, s, best)
    | (.ok false, s, best) => branch n soft deadline rest s assumptions (committed + t.weight) best

structure Opens (settings : Settings) (n m : Nat) (hard : List (List Lit))
    (soft dropped rest : List SoftClause) (best : Option Costed) (s' : State) (best' : Option Costed) :
    Prop where
  ready : s'.Ready settings (problem hard soft) m
  sound : ∀ found ∈ best', found.Sound n hard soft
  improves : ∀ c, AtMost best c → AtMost best' c
  found : AtMost best' (totalWeight dropped + totalWeight rest)

section Branch

variable (rel : Relaxed n m hard soft) (probable : settings.Probable)
  {kept dropped rest : List SoftClause} {best : Option Costed} {deadline : Deadline}
  (ready : s.Ready settings (problem hard soft) m) (perm : (kept ++ dropped ++ rest).Perm soft)
  (sound : ∀ b ∈ best, b.Sound n hard soft)

include rel perm in
theorem refutes_node
    (fails : ∀ v, Models v (problem hard soft) → ∃ a ∈ kept.map SoftClause.firm, ¬ a.Holds v)
    (v : Valuation) : ¬ Node hard kept dropped v := by
  intro node
  obtain ⟨a, ha, falsified⟩ := fails _ (rel.models_relax node.models)
  obtain ⟨t, ht, rfl⟩ := List.mem_map.1 ha
  have mem : t ∈ soft := perm.subset (List.mem_append_left _ (List.mem_append_left _ ht))
  exact falsified (rel.firm_relax mem (node.satisfies t ht))

include rel probable ready perm sound in
theorem branch_node :
    Explores settings n m hard soft kept dropped best
        (branch n soft deadline rest s (kept.map SoftClause.firm) (totalWeight dropped) best) ∨
      Stops settings m hard soft deadline
        (branch n soft deadline rest s (kept.map SoftClause.firm) (totalWeight dropped) best) ∨
      ∃ s' best', Opens settings n m hard soft dropped rest best s' best' ∧
        branch n soft deadline rest s (kept.map SoftClause.firm) (totalWeight dropped) best =
          branches n soft deadline s' (kept.map SoftClause.firm) (totalWeight dropped) best' rest := by
  have sub : kept ⊆ soft := fun t ht => perm.subset (List.mem_append_left _ (List.mem_append_left _ ht))
  rw [branch.eq_def]
  dsimp only
  by_cases pruned : (best.any fun found => found.cost ≤ totalWeight dropped) = true
  · rw [if_pos pruned]
    have cheap : AtMost best (totalWeight dropped) := by
      cases best with
      | none => cases pruned
      | some found => exact ⟨found, rfl, by simpa using pruned⟩
    exact .inl ⟨rfl, ready, sound, fun _ h => h, fun v node => cheap.mono (node.totalWeight_le perm)⟩
  · rw [if_neg pruned]
    have within := ready.solve_within probable (rel.over_firm sub) deadline
    revert within
    generalize s.solve (kept.map SoftClause.firm) deadline = answer
    rintro (⟨t, i, rfl, left, up⟩ | answers)
    · exact .inr (.inl ⟨rfl, left, i, up⟩)
    cases answers with
    | unsatisfiable s' ready fails =>
      have none := refutes_node rel perm fun v hv => absurd hv (fails v)
      exact .inl ⟨rfl, ready, sound, fun _ h => h, fun v node => absurd node (none v)⟩
    | assumptionConflict s' ready fails =>
      have none := refutes_node rel perm fails
      exact .inl ⟨rfl, ready, sound, fun _ h => h, fun v node => absurd node (none v)⟩
    | satisfiable s' ready total models holds =>
      have found := sound_modelOf rel ready total models
      have sound' := improve_sound found sound
      have improves (c : Nat) (h : AtMost best c) : AtMost (improve n soft s' best) c :=
        improve_atMost (.inr h)
      dsimp only
      by_cases least : costOf soft s' = totalWeight dropped
      · rw [if_pos least]
        refine .inl ⟨rfl, ready, sound', improves, fun v node => improve_atMost (.inl ?_)⟩
        rw [least]
        exact node.totalWeight_le perm
      · rw [if_neg least]
        refine .inr (.inr ⟨s', _, ⟨ready, sound', improves, improve_atMost (.inl ?_)⟩, by cases rest <;> rfl⟩)
        rw [costOf_eq rel ready total, ← penalty_perm _ (perm.map SoftClause.weighed), List.map_append,
          List.map_append, penalty_append, penalty_append, penalty_eq_zero, Nat.zero_add]
        · exact Nat.add_le_add (penalty_le_totalWeight _ dropped) (penalty_le_totalWeight _ rest)
        · intro t ht
          refine SoftClause.satisfies_of_firm (models _ ?_) (holds _ (List.mem_map_of_mem ht))
          exact List.mem_append_right _ (List.mem_map_of_mem (sub ht))

include rel probable ready perm sound in
theorem branch_spec :
    Explores settings n m hard soft kept dropped best
        (branch n soft deadline rest s (kept.map SoftClause.firm) (totalWeight dropped) best) ∨
      Stops settings m hard soft deadline
        (branch n soft deadline rest s (kept.map SoftClause.firm) (totalWeight dropped) best) := by
  induction rest generalizing s kept dropped best with
  | nil =>
    rcases branch_node rel probable ready perm sound with closed | stops | ⟨s', best', opens, run⟩
    · exact .inl closed
    · exact .inr stops
    · rw [run]
      refine .inl ⟨rfl, opens.ready, opens.sound, opens.improves, fun v node => ?_⟩
      exact opens.found.mono (node.totalWeight_le perm)
  | cons t rest ih =>
    rcases branch_node rel probable ready perm sound with closed | stops | ⟨s', best', opens, run⟩
    · exact .inl closed
    · exact .inr stops
    · -- the second branch starts from the best model of the first
      have moved : (kept ++ [t] ++ dropped ++ rest).Perm (kept ++ dropped ++ t :: rest) := by
        rw [List.append_assoc, List.append_assoc, List.append_assoc]
        exact .append_left kept (show (t :: (dropped ++ rest)).Perm _ from List.perm_middle.symm)
      have first := ih opens.ready (moved.trans perm) opens.sound
      rw [List.map_append, List.map_singleton] at first
      rw [run, branches]
      revert first
      rcases branch n soft deadline rest s' (kept.map SoftClause.firm ++ [t.firm]) (totalWeight dropped) best'
        with ⟨timeUp, s₁, best₁⟩
      rintro (first | stops)
      case inr =>
        obtain rfl : timeUp = .ok true := stops.stopped
        exact .inr ⟨rfl, stops.ready, stops.late⟩
      obtain rfl : timeUp = .ok false := first.finished
      have given_up : (kept ++ (dropped ++ [t]) ++ rest).Perm soft := by simpa using perm
      have second := ih first.ready given_up first.sound
      rw [totalWeight_concat] at second
      refine second.imp_left fun second => ?_
      refine ⟨second.finished, second.ready, second.sound, fun c h => ?_, fun v node => ?_⟩
      · exact second.improves c (first.improves c (opens.improves c h))
      · rcases node.split t with node | node
        · exact second.improves _ (first.covers v node)
        · exact second.covers v node

end Branch

section New

variable {clauses : List (List Lit)} {given : List (List Lit × Nat)}

theorem addSoft_spec (ready : s.Ready settings clauses m) (bounded : ∀ c ∈ given, Over n c.1) (le : n ≤ m) :
    ∃ soft s', addSoft s given = .ok (soft, s') ∧ soft.map SoftClause.weighed = given ∧
      soft.map SoftClause.relaxation = List.range' (m + 1) given.length ∧
      s'.Ready settings (clauses ++ soft.map SoftClause.relaxed) (m + given.length) := by
  induction given generalizing s clauses m with
  | nil => exact ⟨[], s, rfl, rfl, rfl, by rwa [List.map_nil, List.append_nil]⟩
  | cons c given ih =>
    obtain ⟨literals, weight⟩ := c
    obtain ⟨atom, ready⟩ := ready.newAtom
    have over' : Over (m + 1) (literals ++ [⟨m + 1, true⟩]) := fun l hl => by
      rcases List.mem_append.1 hl with hl | hl
      · exact (bounded _ List.mem_cons_self).mono (by omega) l hl
      · obtain rfl := List.mem_singleton.1 hl
        exact ⟨Nat.succ_pos m, Nat.le_refl _⟩
    obtain ⟨t, added, ready⟩ := ready.addClause over'
    obtain ⟨soft, s', rest, weighed, relaxations, ready⟩ :=
      ih ready (fun d hd => bounded d (List.mem_cons_of_mem _ hd)) (by omega)
    refine ⟨⟨literals, weight, m + 1⟩ :: soft, s', ?_, ?_, ?_, ?_⟩
    · simp only [addSoft, atom, added, rest]
    · rw [List.map_cons, weighed]
      rfl
    · rw [List.map_cons, relaxations, List.length_cons, List.range'_succ]
    · rw [List.append_assoc, Nat.add_assoc, Nat.add_comm 1] at ready
      exact ready

end New

structure Ready (settings : Settings) (n : Nat) (hard : List (List Lit)) (given : List (List Lit × Nat))
    (o : Optimizer) : Prop where
  atomCount : o.atomCount = n
  weighed : (o.soft.map SoftClause.weighed).Perm given
  relaxed : Relaxed n (n + given.length) hard o.soft
  state : o.state.Ready settings (problem hard o.soft) (n + given.length)

namespace Ready

variable {given : List (List Lit × Nat)} {o : Optimizer}

theorem new (settings : Settings) (hard_over : ∀ c ∈ hard, Over n c) (soft_over : ∀ c ∈ given, Over n c.1) :
    ∃ o, Optimizer.new settings n hard given = .ok o ∧ o.Ready settings n hard given := by
  have atoms := (State.Ready.new settings).newAtoms n
  rw [Nat.zero_add] at atoms
  obtain ⟨t, addedHard, ready⟩ := atoms.addClauses hard_over
  obtain ⟨soft, s, addedSoft, weighed, relaxations, ready⟩ := addSoft_spec ready soft_over (Nat.le_refl n)
  set sorted := stableSort (fun a b : SoftClause => b.weight ≤ a.weight) soft with hsorted
  have perm : sorted.Perm soft := stableSort_perm _ soft
  refine ⟨⟨s, n, sorted⟩, by simp only [Optimizer.new, addedHard, addedSoft, hsorted], ?_⟩
  have range (a : Nat) (ha : a ∈ List.range' (n + 1) given.length) : n < a ∧ a ≤ n + given.length := by
    rw [List.mem_range'_1] at ha
    omega
  rw [← relaxations] at range
  have range (t : SoftClause) (ht : t ∈ sorted) : n < t.relaxation ∧ t.relaxation ≤ n + given.length :=
    range t.relaxation (List.mem_map_of_mem (perm.subset ht))
  have nodup : (soft.map SoftClause.relaxation).Nodup := relaxations ▸ List.nodup_range'
  refine
    { atomCount := rfl
      weighed := weighed ▸ perm.map _
      relaxed :=
        { le := Nat.le_add_right _ _
          hard_over
          soft_over := fun t ht => ?_
          relaxation_gt := fun t ht => (range t ht).1
          relaxation_le := fun t ht => (range t ht).2
          relaxation_inj := fun t ht u hu =>
            List.inj_on_of_nodup_map nodup (perm.subset ht) (perm.subset hu) }
      state := ready.of_mem_iff fun c => ?_ }
  · exact soft_over t.weighed (weighed ▸ List.mem_map_of_mem (perm.subset ht))
  · rw [problem, List.nil_append, List.mem_append, List.mem_append, (perm.map SoftClause.relaxed).mem_iff]

theorem addHard (ready : o.Ready settings n hard given) {clause : List Lit} (bounded : Over n clause) :
    ∃ o', o.addHard clause = .ok o' ∧ o'.Ready settings n (hard ++ [clause]) given := by
  obtain ⟨t, added, state⟩ := ready.state.addClause (bounded.mono ready.relaxed.le)
  refine ⟨{ o with state := t }, by rw [Optimizer.addHard, added], ready.atomCount, ready.weighed, ?_, ?_⟩
  · refine { ready.relaxed with hard_over := fun c hc => ?_ }
    rcases List.mem_append.1 hc with hc | hc
    · exact ready.relaxed.hard_over c hc
    · rwa [List.mem_singleton.1 hc]
  · refine state.of_mem_iff fun c => ?_
    simp only [problem, List.mem_append]
    tauto

theorem addAllHard (ready : o.Ready settings n hard given) {clauses : List (List Lit)}
    (bounded : ∀ c ∈ clauses, Over n c) :
    ∃ o', o.addAllHard clauses = .ok o' ∧ o'.Ready settings n (hard ++ clauses) given := by
  induction clauses generalizing o hard with
  | nil => exact ⟨o, rfl, by rwa [List.append_nil]⟩
  | cons c clauses ih =>
    obtain ⟨t, added, ready⟩ := ready.addHard (bounded c List.mem_cons_self)
    obtain ⟨o', addedAll, ready⟩ := ih ready fun d hd => bounded d (List.mem_cons_of_mem c hd)
    rw [List.append_assoc] at ready
    exact ⟨o', by rw [Optimizer.addAllHard, added]; exact addedAll, ready⟩

end Ready

/-- A model of the hard clauses of which no other falsifies less, with what it falsifies. -/
structure Optimal (n : Nat) (hard : List (List Lit)) (given : List (List Lit × Nat)) (best : Costed) :
    Prop where
  atoms : best.model.map Lit.atom = List.range' 1 n
  models : Models (Valuation.ofModel best.model) hard
  cost_eq : best.cost = penalty (Valuation.ofModel best.model) given
  least : ∀ v, Models v hard → best.cost ≤ penalty v given

inductive Answers (settings : Settings) (n : Nat) (hard : List (List Lit)) (given : List (List Lit × Nat)) :
    Except Error Optimum × Optimizer → Prop
  | infeasible (o : Optimizer) (ready : o.Ready settings n hard given) (fails : ∀ v, ¬ Models v hard) :
    Answers settings n hard given (.ok .infeasible, o)
  | optimal (best : Costed) (o : Optimizer) (ready : o.Ready settings n hard given)
    (optimal : Optimal n hard given best) : Answers settings n hard given (.ok (.optimal best), o)

theorem Ready.optimize_within {given : List (List Lit × Nat)} {o : Optimizer}
    (ready : o.Ready settings n hard given) (probable : settings.Probable) (deadline : Deadline) :
    (∃ o' i, o.optimize deadline = (.ok .timeUp, o') ∧ o'.Ready settings n hard given ∧ deadline i = true) ∨
      Answers settings n hard given (o.optimize deadline) := by
  have explores : Explores settings n (n + given.length) hard o.soft [] [] none
        (branch n o.soft deadline o.soft o.state [] 0 none) ∨
      Stops settings (n + given.length) hard o.soft deadline
        (branch n o.soft deadline o.soft o.state [] 0 none) :=
    branch_spec ready.relaxed probable ready.state .rfl nofun
  unfold Optimizer.optimize
  rw [ready.atomCount]
  revert explores
  rcases branch n o.soft deadline o.soft o.state [] 0 none with ⟨timeUp, s, best⟩
  have kept (left : s.Ready settings (problem hard o.soft) (n + given.length)) :
      Ready settings n hard given ⟨s, n, o.soft⟩ :=
    ⟨rfl, ready.weighed, ready.relaxed, left⟩
  rintro (explores | stops)
  case inr =>
    obtain rfl : timeUp = .ok true := stops.stopped
    obtain ⟨i, up⟩ := stops.late
    exact .inl ⟨_, i, rfl, kept stops.ready, up⟩
  obtain rfl : timeUp = .ok false := explores.finished
  have ready' := kept explores.ready
  have covers (v : Valuation) (hv : Models v hard) : AtMost best (penalty v given) := by
    rw [← penalty_perm v ready.weighed]
    exact explores.covers v (Node.root hv)
  refine .inr ?_
  cases best with
  | none =>
    refine .infeasible _ ready' fun v hv => ?_
    obtain ⟨found, mem, -⟩ := covers v hv
    cases mem
  | some best =>
    have sound := explores.sound best rfl
    refine .optimal best _ ready' ⟨sound.atoms, sound.models, ?_, fun v hv => ?_⟩
    · rw [← penalty_perm _ ready.weighed]
      exact sound.cost_eq
    · obtain ⟨found, mem, le⟩ := covers v hv
      cases mem
      exact le

theorem Ready.optimize {given : List (List Lit × Nat)} {o : Optimizer}
    (ready : o.Ready settings n hard given) (probable : settings.Probable) :
    Answers settings n hard given (o.optimize .never) := by
  rcases ready.optimize_within probable .never with ⟨_, _, _, _, ⟨⟩⟩ | answers
  exact answers

section Run

variable {given : List (List Lit × Nat)} {o : Optimizer} (ready : o.Ready settings n hard given)
  (probable : settings.Probable)

include ready probable

theorem Ready.perform {call : Call} (bounded : ∀ c ∈ call.clauses, Over n c) :
    ∃ o', o.perform call = .ok o' ∧ o'.Ready settings n (hard ++ call.clauses) given := by
  cases call with
  | addHard clause => exact ready.addHard (bounded clause List.mem_cons_self)
  | optimize =>
    have answers := ready.optimize probable
    rw [Call.clauses, List.append_nil, Optimizer.perform]
    revert answers
    rcases o.optimize .never with ⟨answer, o'⟩
    intro answers
    cases answers with
    | infeasible _ ready => exact ⟨o', rfl, ready⟩
    | optimal best _ ready => exact ⟨o', rfl, ready⟩

theorem Ready.run {calls : List Call} (bounded : ∀ c ∈ calls.flatMap Call.clauses, Over n c) :
    ∃ o', o.run calls = .ok o' ∧ o'.Ready settings n (hard ++ calls.flatMap Call.clauses) given := by
  induction calls generalizing o hard with
  | nil => exact ⟨o, rfl, by rwa [List.flatMap_nil, List.append_nil]⟩
  | cons call calls ih =>
    rw [List.flatMap_cons] at bounded ⊢
    obtain ⟨t, performed, ready⟩ :=
      ready.perform probable fun c hc => bounded c (List.mem_append_left _ hc)
    obtain ⟨o', rest, ready⟩ := ih ready fun c hc => bounded c (List.mem_append_right _ hc)
    rw [List.append_assoc] at ready
    exact ⟨o', by rw [Optimizer.run, List.foldlM_cons, performed]; exact rest, ready⟩

end Run

/-- However hard clauses and optimizations came in turn, an optimization finds out whether the hard clauses
so far have a model, and a model of least penalty if they do. -/
theorem optimum_of_calls (settings : Settings) (probable : settings.Probable) (n : Nat)
    (hard : List (List Lit)) (soft : List (List Lit × Nat)) (calls : List Call)
    (hard_over : ∀ c ∈ hard, Over n c) (soft_over : ∀ c ∈ soft, Over n c.1)
    (calls_over : ∀ c ∈ calls.flatMap Call.clauses, Over n c) :
    ∃ o o', Optimizer.new settings n hard soft = .ok o ∧ o.run calls = .ok o' ∧
      ((o'.optimize .never).1 = .ok .infeasible ↔ ∀ v, ¬ Models v (hard ++ calls.flatMap Call.clauses)) ∧
      ((∃ v, Models v (hard ++ calls.flatMap Call.clauses)) → ∃ best,
        (o'.optimize .never).1 = .ok (.optimal best) ∧
        Optimal n (hard ++ calls.flatMap Call.clauses) soft best) := by
  obtain ⟨o, made, ready⟩ := Ready.new settings hard_over soft_over
  obtain ⟨o', performed, ready⟩ := ready.run probable calls_over
  refine ⟨o, o', made, performed, ?_⟩
  have answers := ready.optimize probable
  revert answers
  rcases o'.optimize .never with ⟨answer, last⟩
  intro answers
  cases answers with
  | infeasible _ _ fails =>
    exact ⟨iff_of_true rfl fails, fun ⟨v, hv⟩ => absurd hv (fails v)⟩
  | optimal best _ _ optimal =>
    exact ⟨iff_of_false nofun fun fails => fails _ optimal.models, fun _ => ⟨best, rfl, optimal⟩⟩

theorem optimum_of_sample : ∃ o o',
    Optimizer.new {} 3 [[⟨1, false⟩, ⟨2, false⟩]]
        [([⟨1, true⟩], 3), ([⟨2, true⟩], 5), ([⟨3, true⟩], 0)] = .ok o ∧
      o.run [.optimize, .addHard [⟨2, false⟩, ⟨3, true⟩], .addHard [⟨3, false⟩]] = .ok o' ∧
      ∃ best, (o'.optimize .never).1 = .ok (.optimal best) ∧
        Optimal 3 [[⟨1, false⟩, ⟨2, false⟩], [⟨2, false⟩, ⟨3, true⟩], [⟨3, false⟩]]
          [([⟨1, true⟩], 3), ([⟨2, true⟩], 5), ([⟨3, true⟩], 0)] best := by
  obtain ⟨o, o', made, performed, -, optimal⟩ := optimum_of_calls {} Settings.probable_default 3
    [[⟨1, false⟩, ⟨2, false⟩]] [([⟨1, true⟩], 3), ([⟨2, true⟩], 5), ([⟨3, true⟩], 0)]
    [.optimize, .addHard [⟨2, false⟩, ⟨3, true⟩], .addHard [⟨3, false⟩]]
    (by decide) (by decide) (by decide)
  exact ⟨o, o', made, performed, optimal ⟨fun atom => decide (atom = 1), by decide⟩⟩

end Optimizer

end Defeasible.Search
