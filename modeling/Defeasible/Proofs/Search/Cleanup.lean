import Defeasible.Proofs.Search.Incremental

/-! What an analysis leaves behind. Its marks are gone after it if the clause is in conflict at the current
level. If all levels of a false clause are lower, the analysis fails, and every mark it made stays. So the
answers to later solves can be relied on as long as all that is analysed is in conflict. -/

namespace Defeasible.Search.State

variable {s s' : State} {settings : Settings} {clauses : List (List Lit)} {key : Nat} {c : Array Lit}

section MarkLits

variable {ls : List Lit} (linked : s.activity.Linked) (level : Nat) (pivot : Option Nat) (unresolved : Nat)
  (others : Array Lit)

include linked

theorem isSeen_markLits (known : ∀ l ∈ ls, l.atom < s.seen.size) (atom : Nat) :
    (markLits level pivot ls s unresolved others).1.isSeen atom = true ↔ s.isSeen atom = true ∨
      ∃ l ∈ ls, l.atom = atom ∧ pivot ≠ some l.atom ∧ 0 < s.level l.atom := by
  induction ls generalizing s unresolved others with
  | nil => simp [markLits]
  | cons l ls ih =>
    have rest : ∀ m ∈ ls, m.atom < s.seen.size := fun m hm => known m (List.mem_cons_of_mem l hm)
    simp only [List.exists_mem_cons_iff]
    rw [markLits]
    split
    · next skip =>
      rw [ih linked _ _ rest]
      refine or_congr_right' fun new => (or_iff_right ?_).symm
      rintro ⟨rfl, hp, positive⟩
      rcases skip with pivotal | marked | zero
      · exact hp pivotal
      · exact new marked
      · omega
    · next take =>
      rw [not_or, not_or] at take
      obtain ⟨hp, -, positive⟩ := take
      have rem := remarked_touch linked l
      have rest' : ∀ m ∈ ls, m.atom < (s.touch l).seen.size := by rwa [rem.size_seen]
      have marks (n : Nat) (o : Array Lit) :
          (markLits level pivot ls (s.touch l) n o).1.isSeen atom = true ↔ s.isSeen atom = true ∨
            l.atom = atom ∧ pivot ≠ some l.atom ∧ 0 < s.level l.atom ∨
            ∃ m ∈ ls, m.atom = atom ∧ pivot ≠ some m.atom ∧ 0 < s.level m.atom := by
        rw [ih rem.activity.linked n o rest', isSeen_touch linked (known l List.mem_cons_self)]
        simp only [rem.level]
        have own : l.atom = atom ∧ pivot ≠ some l.atom ∧ 0 < s.level l.atom ↔ atom = l.atom :=
          ⟨fun h => h.1.symm, fun h => ⟨h.symm, hp, Nat.pos_of_ne_zero positive⟩⟩
        rw [own, or_left_comm]
        exact or_assoc
      dsimp only
      split
      · exact marks _ _
      · exact marks _ _

theorem unresolved_markLits (lower : ∀ l ∈ ls, 0 < s.level l.atom → s.level l.atom ≠ level) :
    (markLits level pivot ls s unresolved others).2.1 = unresolved := by
  induction ls generalizing s others with
  | nil => rfl
  | cons l ls ih =>
    have rem := remarked_touch linked l
    have rest : ∀ m ∈ ls, 0 < s.level m.atom → s.level m.atom ≠ level :=
      fun m hm => lower m (List.mem_cons_of_mem l hm)
    rw [markLits]
    split
    · exact ih linked others rest
    · next take =>
      rw [not_or, not_or] at take
      have differs : (s.touch l).level l.atom ≠ level := by
        rw [rem.level]
        exact lower l List.mem_cons_self (Nat.pos_of_ne_zero take.2.2)
      dsimp only
      split
      · next current => exact absurd current differs
      exact ih rem.activity.linked _ (by simpa only [rem.level] using rest)

end MarkLits

theorem analyse_of_lower (h : s.Coherent) (linked : s.activity.Linked) (hc : s.clauses[key]? = some c)
    (lower : ∀ l ∈ c, 0 < s.level l.atom → s.level l.atom ≠ s.trail.level) :
    (s.analyse key).1 = .error (.analysis .noAssertion) ∧ ∀ atom,
      (s.analyse key).2.isSeen atom = true ↔
        s.isSeen atom = true ∨ ∃ l ∈ c, l.atom = atom ∧ 0 < s.level l.atom := by
  have stored := (Array.getElem?_eq_some_iff.1 hc).1
  have known : ∀ l ∈ c.toList, l.atom < s.seen.size :=
    fun l hl => h.lt_seen (h.clause_hasAtom key c hc l (Array.mem_toList_iff.1 hl))
  have count := unresolved_markLits linked s.trail.level none 0 #[]
    (fun l hl => lower l (Array.mem_toList_iff.1 hl))
  have marks := isSeen_markLits linked s.trail.level none 0 #[] known
  have failed : s.analyse key = (.error (.analysis .noAssertion),
      (markLits s.trail.level none c.toList s 0 #[]).1) := by
    simp only [analyse, if_neg (Nat.not_le.2 stored), resolve, hc, Array.getD_eq_getD_getElem?,
      Option.getD_some, count, if_pos]
  rw [failed]
  refine ⟨rfl, fun atom => (marks atom).trans ?_⟩
  simp

/-- A stored clause that an analysis can start from: it is false, with a literal of the current level, or
none of its literals is above level zero. -/
def Analysable (s : State) (key : Nat) : Prop :=
  ∃ c, s.clauses[key]? = some c ∧ ((∀ l ∈ c, s.level l.atom = 0) ∨
    (∀ l ∈ c, l.negate ∈ s.trail.literals) ∧ ∃ l ∈ c, s.level l.atom = s.trail.level)

theorem Analysable.unmarked (analysable : s.Analysable key) (h : s.Coherent) (linked : s.activity.Linked)
    (unmarked : ∀ atom, s.isSeen atom = false) (atom : Nat) : (s.analyse key).2.isSeen atom = false := by
  obtain ⟨c, hc, cases⟩ := analysable
  by_cases zero : ∀ l ∈ c, s.level l.atom = 0
  · have none : ∀ l ∈ c, ¬ 0 < s.level l.atom := fun l hl => Nat.not_lt.2 (Nat.le_of_eq (zero l hl))
    have marks := (analyse_of_lower h linked hc fun l hl positive => absurd positive (none l hl)).2
    rw [← Bool.not_eq_true, marks, unmarked]
    rintro (⟨⟨⟩⟩ | ⟨l, hl, -, positive⟩)
    exact none l hl positive
  · obtain ⟨falsified, current⟩ := cases.resolve_left zero
    have above : 0 < s.trail.level := by
      by_contra base
      refine zero fun l hl => ?_
      have := h.level_le l.negate (falsified l hl)
      rw [Lit.atom_negate] at this
      omega
    obtain ⟨learnt, t, run, -, clean, -⟩ := analyse_spec h linked unmarked above hc falsified current
    rw [run]
    exact clean atom

section Falsified

variable (h : s.Coherent) (linked : s.activity.Linked) (unmarked : ∀ atom, s.isSeen atom = false)
  (hc : s.clauses[key]? = some c) (falsified : ∀ l ∈ c, l.negate ∈ s.trail.literals)

include h linked unmarked hc falsified

theorem analyse_ok_iff : (∃ learnt, (s.analyse key).1 = .ok learnt) ↔
    0 < s.trail.level ∧ ∃ l ∈ c, s.level l.atom = s.trail.level := by
  constructor
  · rintro ⟨learnt, ok⟩
    by_contra none
    have failed := (analyse_of_lower h linked hc fun l hl positive current =>
      none ⟨current ▸ positive, l, hl, current⟩).1
    rw [failed] at ok
    cases ok
  · rintro ⟨above, current⟩
    obtain ⟨learnt, t, run, -⟩ := analyse_spec h linked unmarked above hc falsified current
    exact ⟨learnt, by rw [run]⟩

theorem unmarked_analyse_iff : (∀ atom, (s.analyse key).2.isSeen atom = false) ↔ s.Analysable key := by
  refine ⟨fun clean => ?_, fun analysable => analysable.unmarked h linked unmarked⟩
  by_cases current : ∃ l ∈ c, s.level l.atom = s.trail.level
  · exact ⟨c, hc, .inr ⟨falsified, current⟩⟩
  · have marks := (analyse_of_lower h linked hc fun l hl _ same => current ⟨l, hl, same⟩).2
    refine ⟨c, hc, .inl fun l hl => ?_⟩
    by_contra positive
    have seen := (marks l.atom).2 (.inr ⟨l, hl, rfl, Nat.pos_of_ne_zero positive⟩)
    rw [clean] at seen
    cases seen

end Falsified

theorem Propagates.analysable (drawn : Propagates s (some key) s')
    (starts : ∀ x ∈ s.trail.starts, x ≤ s.trail.head) : s'.Analysable key := by
  obtain ⟨c, hc, falsified, l, hl, i, le, hi⟩ := drawn.false_clause key rfl
  refine ⟨c, hc, .inr ⟨falsified, l, hl, ?_⟩⟩
  rw [← Lit.atom_negate]
  refine drawn.coherent.level_eq_current hi fun x hx => ?_
  rw [drawn.grows.starts] at hx
  exact Nat.le_trans (starts x hx) le

theorem Remarked.settled (r : Remarked s s') (settled : s.Settled) : s'.Settled := by
  rw [r.eq]
  exact settled

/-- The states that operations on existing atoms reach from a new one, with the clauses these have added,
where every clause that is analysed between them can be. -/
inductive Orderly (settings : Settings) : List (List Lit) → State → Prop
  | new : Orderly settings [] (State.new settings)
  | perform {clauses : List (List Lit)} {s : State} (op : Operation) (before : Orderly settings clauses s)
    (legal : ∀ l ∈ op.literals, s.HasAtom l.atom) : Orderly settings (clauses ++ op.clauses) (s.perform op)
  | analyse {clauses : List (List Lit)} {s : State} (key : Nat) (before : Orderly settings clauses s)
    (analysable : s.Analysable key) : Orderly settings clauses (s.analyse key).2

namespace Orderly

theorem spec (orderly : Orderly settings clauses s) : s.Invariant settings clauses ∧ s.Settled := by
  induction orderly with
  | new => exact ⟨new_invariant settings, new_settled settings⟩
  | perform op _ legal ih => exact perform_spec ih.1 ih.2 op legal
  | analyse key _ analysable ih =>
    obtain ⟨inv, settled⟩ := ih
    have remarked := remarked_analyse inv.queued.linked key
    have unmarked := analysable.unmarked inv.coherent inv.queued.linked inv.unmarked
    exact ⟨inv.remarked remarked unmarked, remarked.settled settled⟩

theorem ready (orderly : Orderly settings clauses s) : s.Ready settings clauses s.atomCount := by
  obtain ⟨inv, settled⟩ := orderly.spec
  refine ⟨inv, settled, ?_⟩
  have := inv.coherent.size_pos
  unfold atomCount
  omega

theorem run {ops : List Operation} (orderly : Orderly settings clauses s) (legal : s.Legal ops) :
    Orderly settings (clauses ++ added ops) (s.run ops) := by
  induction ops generalizing s clauses with
  | nil => rwa [added, List.flatMap_nil, List.append_nil]
  | cons op ops ih =>
    have rest := ih (orderly.perform op legal.1) legal.2
    rwa [List.append_assoc] at rest

end Orderly

theorem Answers.satisfiable_iff {n : Nat} {assumptions : List Lit} {r : Except Error Report}
    (answers : Answers settings clauses n assumptions (r, s)) : ∃ report, r = .ok report ∧
      (report = .satisfiable ↔ ∃ v, Models v clauses ∧ ∀ a ∈ assumptions, a.Holds v) := by
  cases answers with
  | satisfiable _ _ _ models holds =>
    exact ⟨_, rfl, iff_of_true rfl ⟨_, models, holds⟩⟩
  | unsatisfiable _ _ fails =>
    exact ⟨_, rfl, iff_of_false (by decide) fun ⟨v, models, _⟩ => fails v models⟩
  | assumptionConflict _ _ fails =>
    refine ⟨_, rfl, iff_of_false (by decide) fun ⟨v, models, holds⟩ => ?_⟩
    obtain ⟨a, ha, not⟩ := fails v models
    exact not (holds a ha)

/-- In an orderly history no analysis leaves a mark, whether it fails or not, and every solve is right about
the clauses that were added. Of the false clauses, exactly the analysable ones leave no mark, and those that
propagation reports are among them if no decision waits to be drawn from. -/
theorem analysis_cleans_up (settings : Settings) (probable : settings.Probable) (clauses : List (List Lit))
    (s : State) (orderly : Orderly settings clauses s) :
    (∀ key, s.Analysable key → ∀ atom, (s.analyse key).2.isSeen atom = false) ∧
    (∀ key c, s.clauses[key]? = some c → (∀ l ∈ c, l.negate ∈ s.trail.literals) →
      ((∃ learnt, (s.analyse key).1 = .ok learnt) ↔
        0 < s.trail.level ∧ ∃ l ∈ c, s.level l.atom = s.trail.level) ∧
      ((∀ atom, (s.analyse key).2.isSeen atom = false) ↔ s.Analysable key)) ∧
    ((∀ x ∈ s.trail.starts, x ≤ s.trail.head) →
      ∀ key t, s.propagate = (some key, t) → t.Analysable key) ∧
    ∀ (assumptions : List Lit) (deadline : Deadline), (∀ a ∈ assumptions, s.HasAtom a.atom) →
      ∃ report, (s.solve assumptions deadline).1 = .ok report ∧
        ((report = .timeUp ∧ ∃ i, deadline i = true) ∨
          (report = .satisfiable ↔ ∃ v, Models v clauses ∧ ∀ a ∈ assumptions, a.Holds v)) := by
  obtain ⟨inv, settled⟩ := orderly.spec
  have h := inv.coherent
  have linked := inv.queued.linked
  refine ⟨fun key analysable => analysable.unmarked h linked inv.unmarked,
    fun key c hc falsified => ⟨analyse_ok_iff h linked inv.unmarked hc falsified,
      unmarked_analyse_iff h linked inv.unmarked hc falsified⟩,
    fun starts key t drawn => (propagate_spec h inv.watched drawn).analysable starts,
    fun assumptions deadline known => ?_⟩
  have bounded : Over s.atomCount assumptions := fun a ha => by
    obtain ⟨pos, lt⟩ := known a ha
    exact ⟨pos, Nat.le_sub_one_of_lt lt⟩
  rcases orderly.ready.solve_within probable bounded deadline with ⟨t, i, run, -, up⟩ | answers
  · exact ⟨.timeUp, by rw [run], .inl ⟨rfl, i, up⟩⟩
  · obtain ⟨report, answer, iff⟩ := answers.satisfiable_iff
    exact ⟨report, answer, .inr iff⟩

def contested : List Operation :=
  [.newAtom, .newAtom, .addClause [⟨1, false⟩, ⟨2, true⟩], .addClause [⟨1, false⟩, ⟨2, false⟩],
    .makeDecision [⟨1, true⟩]]

def conflicted : State := ((State.new {}).run contested).propagate.2

theorem analysis_cleans_up_contested :
    (∃ learnt, (conflicted.analyse 1).1 = .ok learnt) ∧
      (∀ atom, (conflicted.analyse 1).2.isSeen atom = false) ∧
      ((conflicted.analyse 1).2.solve [⟨1, true⟩] .never).1 = .ok .assumptionConflict ∧
      ¬ ∃ v, Models v (added contested) ∧ ∀ a ∈ [(⟨1, true⟩ : Lit)], a.Holds v := by
  have legal : (State.new {}).Legal contested := by decide +kernel
  have decided : Orderly {} (added contested) ((State.new {}).run contested) := Orderly.new.run legal
  obtain ⟨-, -, reported, -⟩ := analysis_cleans_up {} Settings.probable_default _ _ decided
  have reports : ((State.new {}).run contested).propagate.1 = some 1 := by decide +kernel
  have analysable : conflicted.Analysable 1 :=
    reported (by decide +kernel) 1 conflicted (Prod.ext reports rfl)
  have drawn : Orderly {} (added contested) conflicted := decided.perform .propagate nofun
  obtain ⟨clean, falsified, -⟩ := analysis_cleans_up {} Settings.probable_default _ _ drawn
  obtain ⟨-, -, -, answers⟩ :=
    analysis_cleans_up {} Settings.probable_default _ _ (drawn.analyse 1 analysable)
  have solved : ((conflicted.analyse 1).2.solve [⟨1, true⟩] .never).1 = .ok .assumptionConflict := by
    decide +kernel
  refine ⟨?_, clean 1 analysable, solved, fun models => ?_⟩
  · refine (falsified 1 #[⟨2, false⟩, ⟨1, false⟩] (by decide +kernel) (by decide +kernel)).1.2 ?_
    exact ⟨by decide +kernel, by decide +kernel⟩
  · obtain ⟨report, answer, late | iff⟩ := answers [⟨1, true⟩] .never (by decide +kernel)
    · obtain ⟨-, i, ⟨⟩⟩ := late
    · obtain rfl : report = .assumptionConflict := by
        rw [solved] at answer
        cases answer
        rfl
      cases iff.2 models

def undrawn : List Operation :=
  [.newAtom, .newAtom, .newAtom, .addClause [⟨3, true⟩, ⟨2, true⟩], .addClause [⟨1, false⟩, ⟨3, false⟩],
    .addClause [⟨1, false⟩, ⟨3, true⟩], .addClause [⟨1, true⟩, ⟨2, false⟩],
    .makeDecision [⟨3, false⟩, ⟨2, false⟩, ⟨1, true⟩], .makeDecision [⟨3, false⟩, ⟨2, false⟩, ⟨1, true⟩],
    .makeDecision [⟨3, false⟩, ⟨2, false⟩, ⟨1, true⟩]]

/-- The false clause has no literal of the current level. Its analysis fails, the marks stay, and the next
solve learns a clause without the marked literals: it takes satisfiable clauses for unsatisfiable. -/
theorem analysis_leaves_marks :
    (State.new {}).Legal undrawn ∧
      let s := (State.new {}).run undrawn
      (∃ c, s.clauses[0]? = some c ∧ ∀ l ∈ c, l.negate ∈ s.trail.literals) ∧
      (s.analyse 0).1 = .error (.analysis .noAssertion) ∧
      (s.analyse 0).2.isSeen 2 = true ∧ (s.analyse 0).2.isSeen 3 = true ∧
      (s.solve [] .never).1 = .ok .satisfiable ∧
      ((s.analyse 0).2.solve [] .never).1 = .ok .unsatisfiable ∧
      ∃ v, Models v (added undrawn) := by
  refine ⟨by decide +kernel, ⟨#[⟨3, true⟩, ⟨2, true⟩], by decide +kernel, by decide +kernel⟩,
    by decide +kernel, by decide +kernel, by decide +kernel, by decide +kernel, by decide +kernel,
    fun atom => atom == 3, ?_⟩
  unfold Models Satisfies Lit.Holds
  decide

end Defeasible.Search.State
