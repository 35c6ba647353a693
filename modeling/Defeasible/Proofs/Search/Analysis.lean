import Defeasible.Proofs.Search.Marking

/-! The analysis of a conflict never fails. What it learns follows from the clauses, and has exactly one
literal of the current level. Where marks are left over from an analysis that failed, it may fail too, but
what it returns still has this form. -/

namespace Defeasible.Search.State

variable {s : State}

/-- One of the others holds, or a literal that waits to be resolved is false. -/
def Derived (s : State) (v : Valuation) (i : Nat) (others : Array Lit) : Prop :=
  (∃ l ∈ others, l.Holds v) ∨ ∃ j ∈ s.pending i, ∃ l, s.trail.literals[j]? = some l ∧ ¬ l.Holds v

theorem Marked.derived {i unresolved' : Nat} {pivot : Option Nat} {ls : List Lit}
    {others others' : Array Lit} {s' : State} (m : Marked s pivot ls others s' others')
    (r : Resolving s' i unresolved' others') (h : s.Coherent)
    (falsified : ∀ l ∈ ls, pivot ≠ some l.atom → s.FalseBefore i l) {v : Valuation}
    (fixed : ∀ l ∈ s.trail.literals, s.level l.atom = 0 → l.Holds v)
    (derived : s.Derived v i others ∨ ∃ l ∈ ls, pivot ≠ some l.atom ∧ l.Holds v) :
    s'.Derived v i others' := by
  rcases derived with (⟨l, hl, holds⟩ | ⟨j, hj, hrest⟩) | ⟨l, hl, hp, holds⟩
  · exact .inl ⟨l, m.others l hl, holds⟩
  · refine .inr ⟨j, m.pending_subset hj, ?_⟩
    rwa [m.remarked.trail]
  · obtain ⟨j, hj, hjl⟩ := falsified l hl hp
    have hmem := Array.mem_of_getElem? hjl
    have hfalse : ¬ l.negate.Holds v := by simpa using holds
    have above : 0 < s.level l.atom := by
      by_contra hzero
      exact hfalse (fixed _ hmem (by rw [Lit.atom_negate]; omega))
    rcases r.seen _ (m.marked l hl hp above) with ⟨k, hk, heq⟩ | ⟨k, hk, n, hn, heq⟩
    · refine .inl ⟨k, hk, ?_⟩
      rwa [r.coherent.eq_of_false (r.others_false k hk) (by rwa [m.remarked.trail]) heq]
    · refine .inr ⟨k, hk, n, hn, ?_⟩
      rw [m.remarked.trail] at hn
      obtain rfl := h.atom_inj k j n l.negate hn hjl heq
      obtain rfl := Option.some.inj (hn.symm.trans hjl)
      exact hfalse

namespace Derived

variable {v : Valuation} {i j unresolved : Nat} {others : Array Lit} {l : Lit}

theorem satisfies (derived : s.Derived v i others) (r : Resolving s i 1 others)
    (last : s.lastSeen? i = some (j, l)) : Satisfies v (l.negate :: others.toList) := by
  have hj := r.tracing.lastSeen_mem_pending Nat.one_pos last
  obtain ⟨-, hl, -⟩ := lastSeen?_some last
  rcases derived with ⟨k, hk, holds⟩ | ⟨k, hk, n, hn, hnot⟩
  · exact ⟨k, List.mem_cons_of_mem _ (Array.mem_toList_iff.2 hk), holds⟩
  · obtain rfl : k = j := Finset.card_le_one.1 (Nat.le_of_eq r.card) k hk j hj
    obtain rfl : n = l := Option.some.inj (hn.symm.trans hl)
    exact ⟨n.negate, List.mem_cons_self .., (Lit.holds_negate v n).2 hnot⟩

theorem resolve {key : Nat} {c : Array Lit} (derived : s.Derived v i others)
    (r : Resolving s i unresolved others) (last : s.lastSeen? i = some (j, l))
    (hc : s.clauses[key]? = some c) (hl : l ∈ c) (sat : Satisfies v c.toList) :
    (s.mark l.atom false).Derived v j others ∨ ∃ m ∈ c, some l.atom ≠ some m.atom ∧ m.Holds v := by
  obtain ⟨-, hjl, -⟩ := lastSeen?_some last
  rcases derived with ho | ⟨k, hk, n, hn, hnot⟩
  · exact .inl (.inl ho)
  · by_cases hkj : k = j
    · subst hkj
      obtain rfl : n = l := Option.some.inj (hn.symm.trans hjl)
      obtain ⟨m, hm, holds⟩ := sat
      have hm := Array.mem_toList_iff.1 hm
      refine .inr ⟨m, hm, fun heq => ?_, holds⟩
      obtain ⟨x, hx⟩ := Array.mem_iff_getElem?.1 hm
      obtain ⟨y, hy⟩ := Array.mem_iff_getElem?.1 hl
      obtain rfl := r.coherent.clause_inj hc hx hy (Option.some.inj heq).symm
      obtain rfl := Option.some.inj (hx.symm.trans hy)
      exact hnot holds
    · refine .inl (.inr ⟨k, ?_, n, hn, hnot⟩)
      rw [r.tracing.pending_unmark last]
      exact Finset.mem_erase.2 ⟨hkj, hk⟩

end Derived

structure Agrees (s : State) (v : Valuation) : Prop where
  clauses : ∀ (key : Nat) (c : Array Lit), s.clauses[key]? = some c → Satisfies v c.toList
  fixed : ∀ l ∈ s.trail.literals, s.level l.atom = 0 → l.Holds v

theorem Remarked.agrees {s' : State} (r : Remarked s s') {v : Valuation} (a : s.Agrees v) :
    s'.Agrees v where
  clauses := by rw [r.clauses]; exact a.clauses
  fixed l hl := by
    rw [r.trail] at hl
    rw [r.level]
    exact a.fixed l hl

structure Resolved (s : State) (asserted : Lit) (others : Array Lit) (s' : State) : Prop where
  remarked : Remarked s s'
  asserting : s.Asserting asserted others
  seen : ∀ atom, s'.isSeen atom = true → ∃ l ∈ others, l.atom = atom

theorem resolve_spec {fuel key i unresolved : Nat} {pivot : Option Nat} {others : Array Lit}
    {c : Array Lit} (r : Resolving s i unresolved others) (above : 0 < s.trail.level) (bound : i < fuel)
    (hc : s.clauses[key]? = some c)
    (falsified : ∀ l ∈ c, pivot ≠ some l.atom → s.FalseBefore i l)
    (current : 0 < unresolved ∨ ∃ l ∈ c, pivot ≠ some l.atom ∧ s.level l.atom = s.trail.level) :
    ∃ asserted others' s', resolve s.trail.level fuel s key pivot unresolved others i =
        (.ok (asserted, others'), s') ∧
      Resolved s asserted others' s' ∧
      ∀ v, s.Agrees v → (s.Derived v i others ∨ ∃ l ∈ c, pivot ≠ some l.atom ∧ l.Holds v) →
        Satisfies v (asserted :: others'.toList) := by
  induction fuel generalizing s key i unresolved pivot others c with
  | zero => omega
  | succ fuel ih =>
    rcases hrun : markLits s.trail.level pivot c.toList s unresolved others with ⟨t, count, mid⟩
    have falsified' : ∀ l ∈ c.toList, pivot ≠ some l.atom → s.FalseBefore i l :=
      fun l hl => falsified l (Array.mem_toList_iff.1 hl)
    obtain ⟨rt, m⟩ := r.markLits falsified' hrun
    have pos : 0 < count := by
      rw [← rt.card, Finset.card_pos]
      rcases current with hpos | ⟨l, hl, hp, hlevel⟩
      · rw [← r.card, Finset.card_pos] at hpos
        exact hpos.mono m.pending_subset
      · obtain ⟨j, hj, hjl⟩ := falsified l hl hp
        have hseen := m.marked l (Array.mem_toList_iff.2 hl) hp (by omega)
        exact ⟨j, (mem_pending_of_remarked m.remarked).2 ⟨hj, _, hjl, hseen, hlevel⟩⟩
    obtain ⟨j, l, hlast⟩ := rt.tracing.lastSeen?_isSome pos
    obtain ⟨hj, hl, -⟩ := lastSeen?_some hlast
    have unmarked := rt.unmark pos hlast
    have rem := m.remarked.trans (remarked_mark rt.linked l.atom false)
    have derived : ∀ v, s.Agrees v → (s.Derived v i others ∨ ∃ l ∈ c, pivot ≠ some l.atom ∧ l.Holds v) →
        t.Derived v i mid := fun v hv hd => by
      refine m.derived rt r.coherent falsified' hv.fixed (hd.imp_right ?_)
      rintro ⟨k, hk, hrest⟩
      exact ⟨k, Array.mem_toList_iff.2 hk, hrest⟩
    rw [resolve]
    simp only [hc, Array.getD_eq_getD_getElem?, Option.getD_some, hrun, hlast,
      if_neg (Nat.pos_iff_ne_zero.1 pos)]
    by_cases hone : count = 1
    · rw [if_pos hone]
      refine ⟨l.negate, mid, _, rfl, ?_, fun v hv hd => ?_⟩
      · refine ⟨rem, m.remarked.asserting (rt.tracing.asserting pos hlast), fun a ha => ?_⟩
        refine (unmarked.seen a ha).resolve_right ?_
        rintro ⟨k, hk, -⟩
        have : (pending (t.mark l.atom false) j).card = 0 := by rw [unmarked.card, hone]
        rw [Finset.card_eq_zero] at this
        rw [this] at hk
        exact absurd hk (Finset.notMem_empty k)
      · rw [hone] at rt
        exact (derived v hv hd).satisfies rt hlast
    · have hsame : (t.mark l.atom false).trail.level = s.trail.level := congrArg Trail.level rem.trail
      have above' : 0 < (t.mark l.atom false).trail.level := by rwa [hsame]
      obtain ⟨reason, hreason⟩ := rt.tracing.exists_reason (by omega) above' hlast
      obtain ⟨d, hd, hld, hfalse⟩ := rt.coherent.falseBefore_of_reason hl hreason
      obtain ⟨asserted, others', s', heq, res, sat⟩ :=
        ih unmarked above' (by omega) hd hfalse (.inl (by omega))
      have hreason : (t.mark l.atom false).reasons[l.atom]?.join = some reason := hreason
      rw [hsame] at heq
      rw [if_neg hone, hreason]
      refine ⟨asserted, others', s', heq, ⟨rem.trans res.remarked, rem.asserting res.asserting, res.seen⟩,
        fun v hv hder => sat v (rem.agrees hv) ?_⟩
      have sat := (m.remarked.agrees hv).clauses reason d hd
      exact (derived v hv hder).resolve rt hlast hd hld sat

theorem remarked_resolve (linked : s.activity.Linked) (level fuel key : Nat) (pivot : Option Nat)
    (unresolved : Nat) (others : Array Lit) (i : Nat) :
    Remarked s (resolve level fuel s key pivot unresolved others i).2 := by
  induction fuel generalizing s key pivot unresolved others i with
  | zero => exact .refl linked
  | succ fuel ih =>
    have marked := remarked_markLits linked level pivot (s.clauses.getD key #[]).toList unresolved others
    rw [resolve]
    dsimp only
    generalize markLits level pivot (s.clauses.getD key #[]).toList s unresolved others = outcome at marked ⊢
    obtain ⟨t, count, mid⟩ := outcome
    dsimp only at marked ⊢
    split
    · exact marked
    · split
      · exact marked
      · next j l _ =>
        have unmarked := marked.trans (remarked_mark marked.activity.linked l.atom false)
        split
        · exact unmarked
        · split
          · exact unmarked
          · exact unmarked.trans (ih unmarked.activity.linked ..)

/-- Whatever marks are left over, a resolution that comes to an end leaves a single literal of the current
level. -/
theorem resolve_asserting {fuel key i unresolved : Nat} {pivot : Option Nat} {others others' : Array Lit}
    {asserted : Lit} {s' : State} {c : Array Lit} (r : Tracing s i unresolved others)
    (hc : s.clauses[key]? = some c) (falsified : ∀ l ∈ c, pivot ≠ some l.atom → s.FalseBefore i l)
    (run : resolve s.trail.level fuel s key pivot unresolved others i = (.ok (asserted, others'), s')) :
    s.Asserting asserted others' := by
  induction fuel generalizing s key i unresolved pivot others c with
  | zero => cases run
  | succ fuel ih =>
    rcases hrun : markLits s.trail.level pivot c.toList s unresolved others with ⟨t, count, mid⟩
    obtain ⟨rt, m⟩ := r.markLits (fun l hl => falsified l (Array.mem_toList_iff.1 hl)) hrun
    rw [resolve] at run
    simp only [hc, Array.getD_eq_getD_getElem?, Option.getD_some, hrun] at run
    split at run
    · cases run
    · next hpos =>
      have pos : 0 < count := Nat.pos_of_ne_zero hpos
      obtain ⟨j, l, hlast⟩ := rt.lastSeen?_isSome pos
      obtain ⟨-, hl, -⟩ := lastSeen?_some hlast
      have rem := m.remarked.trans (remarked_mark rt.linked l.atom false)
      simp only [hlast] at run
      split at run
      · cases run
        exact m.remarked.asserting (rt.asserting pos hlast)
      · split at run
        · cases run
        · next reason hreason =>
          obtain ⟨d, hd, -, hfalse⟩ := rt.coherent.falseBefore_of_reason hl hreason
          have hsame : (t.mark l.atom false).trail.level = s.trail.level := congrArg Trail.level rem.trail
          rw [← hsame] at run
          exact rem.asserting (ih (rt.unmark pos hlast) hd hfalse run)

theorem resolve_conflict_spec {key : Nat} {c : Array Lit} (h : s.Coherent) (linked : s.activity.Linked)
    (unmarked : ∀ atom, s.isSeen atom = false) (above : 0 < s.trail.level)
    (hc : s.clauses[key]? = some c) (falsified : ∀ l ∈ c, l.negate ∈ s.trail.literals)
    (current : ∃ l ∈ c, s.level l.atom = s.trail.level) :
    ∃ asserted others s', resolve s.trail.level (s.trail.literals.size + 1) s key none 0 #[]
        s.trail.literals.size = (.ok (asserted, others), s') ∧
      Resolved s asserted others s' ∧ ∀ v, s.Agrees v → Satisfies v (asserted :: others.toList) := by
  have before : ∀ l ∈ c, (none : Option Nat) ≠ some l.atom → s.FalseBefore s.trail.literals.size l :=
    fun l hl _ => falseBefore_of_mem (falsified l hl)
  obtain ⟨l, hl, hlevel⟩ := current
  obtain ⟨asserted, others, s', run, resolved, derived⟩ := resolve_spec (.start h linked unmarked) above
    (Nat.lt_succ_self _) hc before (.inr ⟨l, hl, nofun, hlevel⟩)
  refine ⟨asserted, others, s', run, resolved, fun v hv => derived v hv (.inr ?_)⟩
  obtain ⟨m, hm, holds⟩ := hv.clauses key c hc
  exact ⟨m, Array.mem_toList_iff.1 hm, nofun, holds⟩

theorem highest_spec {others : Array Lit} {fuel i best : Nat} (hbest : best < others.size)
    (hfuel : i + fuel = others.size)
    (below : ∀ p < i, s.level (others.getD p default).atom ≤ s.level (others.getD best default).atom) :
    s.highest others fuel i best < others.size ∧ ∀ p < others.size,
      s.level (others.getD p default).atom ≤
        s.level (others.getD (s.highest others fuel i best) default).atom := by
  induction fuel generalizing i best with
  | zero => exact ⟨hbest, fun p hp => below p (by omega)⟩
  | succ fuel ih =>
    rw [highest]
    dsimp only
    by_cases better : s.level (others.getD best default).atom < s.level (others.getD i default).atom
    · rw [if_pos better]
      refine ih (by omega) (by omega) fun p hp => ?_
      rcases Nat.lt_succ_iff_lt_or_eq.1 hp with hp | rfl
      · have := below p hp
        omega
      · exact Nat.le_refl _
    · rw [if_neg better]
      refine ih hbest (by omega) fun p hp => ?_
      rcases Nat.lt_succ_iff_lt_or_eq.1 hp with hp | rfl
      · exact below p hp
      · omega

theorem level_le_first {others : Array Lit} {m : Lit}
    (first : (others.swapIfInBounds 0 (s.highest others (others.size - 1) 1 0))[0]? = some m) :
    ∀ n ∈ others, s.level n.atom ≤ s.level m.atom := by
  intro n hn
  obtain ⟨q, hq, rfl⟩ := Array.mem_iff_getElem.1 hn
  have hsize : 0 < others.size := by omega
  obtain ⟨hlt, greatest⟩ := highest_spec (s := s) hsize (show 1 + (others.size - 1) = others.size by omega)
    fun p hp => by
      obtain rfl : p = 0 := by omega
      exact Nat.le_refl _
  generalize s.highest others (others.size - 1) 1 0 = place at first hlt greatest
  have hplace : others[place]? = some m := by
    rw [getElem?_swapIfInBounds hsize hlt] at first
    split at first
    · next heq => rwa [← heq]
    · rwa [if_pos rfl] at first
  have := greatest q hq
  simpa [hq, hplace] using this

/-- What the analysis of a conflict teaches: a false clause with one literal of the current level, where
the level to go back to is the next greatest. -/
structure Lesson (s : State) (learnt : Learnt) : Prop where
  asserting : s.Asserting learnt.asserted learnt.others
  backjumpLevel_lt : learnt.backjumpLevel < s.trail.level
  level_le : ∀ l ∈ learnt.others, s.level l.atom ≤ learnt.backjumpLevel
  level_second : ∀ l, learnt.others[0]? = some l → s.level l.atom = learnt.backjumpLevel
  backjumpLevel_eq_zero : learnt.others = #[] → learnt.backjumpLevel = 0
  derived : ∀ v, s.Agrees v → Satisfies v learnt.toList

theorem Remarked.lesson {s' : State} (r : Remarked s s') {learnt : Learnt} (h : s.Lesson learnt) :
    s'.Lesson learnt := by
  rw [r.eq]
  exact { h with
    asserting := { h.asserting with }
    derived := fun v a => h.derived v { a with } }

structure Shape (s : State) (learnt : Learnt) : Prop where
  asserting : s.Asserting learnt.asserted learnt.others
  backjumpLevel_lt : learnt.backjumpLevel < s.trail.level
  level_le : ∀ l ∈ learnt.others, s.level l.atom ≤ learnt.backjumpLevel
  level_second : ∀ l, learnt.others[0]? = some l → s.level l.atom = learnt.backjumpLevel
  backjumpLevel_eq_zero : learnt.others = #[] → learnt.backjumpLevel = 0

theorem Lesson.shape {learnt : Learnt} (lesson : s.Lesson learnt) : s.Shape learnt :=
  { lesson with }

theorem Remarked.shape {s' : State} (r : Remarked s s') {learnt : Learnt} (h : s.Shape learnt) :
    s'.Shape learnt := by
  rw [r.eq]
  exact { h with asserting := { h.asserting with } }

namespace Asserting

variable {asserted : Lit} {others others' : Array Lit}

theorem perm (a : s.Asserting asserted others) (p : others'.Perm others) :
    s.Asserting asserted others' where
  asserted_false := a.asserted_false
  asserted_level := a.asserted_level
  others_false l hl := a.others_false l (p.mem_iff.1 hl)
  others_level l hl := a.others_level l (p.mem_iff.1 hl)
  others_nodup := ((Array.perm_iff_toList_perm.1 p).map Lit.atom).nodup_iff.2 a.others_nodup

theorem shape (a : s.Asserting asserted others) (above : 0 < s.trail.level)
    (greatest : ∀ m, others[0]? = some m → ∀ l ∈ others, s.level l.atom ≤ s.level m.atom) :
    s.Shape ⟨asserted, others, (others[0]?.map fun l => s.level l.atom).getD 0⟩ := by
  cases hfirst : others[0]? with
  | none =>
    have hempty : others = #[] := Array.eq_empty_of_size_eq_zero
      (Nat.le_zero.1 (Array.getElem?_eq_none_iff.1 hfirst))
    subst hempty
    exact
      { asserting := a
        backjumpLevel_lt := above
        level_le := fun l hl => absurd hl (Array.not_mem_empty l)
        level_second := fun l hl => nomatch hl
        backjumpLevel_eq_zero := fun _ => rfl }
  | some m =>
    exact
      { asserting := a
        backjumpLevel_lt := (a.others_level m (Array.mem_of_getElem? hfirst)).2
        level_le := greatest m hfirst
        level_second := fun l hl => by
          obtain rfl : m = l := Option.some.inj (hfirst.symm.trans hl)
          rfl
        backjumpLevel_eq_zero := fun hempty => by
          change others = #[] at hempty
          rw [hempty] at hfirst
          cases hfirst }

end Asserting

def conclude (s : State) (asserted : Lit) (others : Array Lit) : Learnt :=
  let others := others.swapIfInBounds 0 (s.highest others (others.size - 1) 1 0)
  ⟨asserted, others, (others[0]?.map fun l => s.level l.atom).getD 0⟩

theorem others_conclude (s : State) (asserted : Lit) (others : Array Lit) :
    (s.conclude asserted others).others.Perm others :=
  perm_swapIfInBounds others 0 _

theorem Asserting.conclude {asserted : Lit} {others : Array Lit} {s' : State}
    (a : s.Asserting asserted others) (above : 0 < s.trail.level) (r : Remarked s s') :
    s.Shape (s'.conclude asserted others) := by
  have perm := s'.others_conclude asserted others
  have shape := (a.perm perm).shape above fun m first n hn => by
    have := level_le_first (s := s') first n (perm.mem_iff.1 hn)
    rwa [r.level, r.level] at this
  simpa only [State.conclude, r.level] using shape

theorem analyse_of_resolve {key : Nat} {asserted : Lit} {others : Array Lit} {t : State}
    (stored : key < s.clauses.size)
    (run : resolve s.trail.level (s.trail.literals.size + 1) s key none 0 #[] s.trail.literals.size =
      (.ok (asserted, others), t)) :
    let u := others.toList.foldl (fun s l => s.mark l.atom false) t
    s.analyse key = (.ok (u.conclude asserted others), u) := by
  simp only [analyse, if_neg (Nat.not_le.2 stored), run, ← Array.foldl_toList]
  rfl

theorem analyse_spec {key : Nat} {c : Array Lit} (h : s.Coherent) (linked : s.activity.Linked)
    (unmarked : ∀ atom, s.isSeen atom = false) (above : 0 < s.trail.level)
    (hc : s.clauses[key]? = some c) (falsified : ∀ l ∈ c, l.negate ∈ s.trail.literals)
    (current : ∃ l ∈ c, s.level l.atom = s.trail.level) :
    ∃ learnt s', s.analyse key = (.ok learnt, s') ∧ Remarked s s' ∧
      (∀ atom, s'.isSeen atom = false) ∧ s.Lesson learnt := by
  obtain ⟨asserted, others, t, hres, res, derived⟩ :=
    resolve_conflict_spec h linked unmarked above hc falsified current
  have known : ∀ m ∈ others.toList, m.atom < t.seen.size := fun m hm => by
    rw [res.remarked.size_seen]
    exact h.lt_seen (h.hasAtom m.negate (res.asserting.others_false m (Array.mem_toList_iff.1 hm)))
  have rem := remarked_foldl_unmark res.remarked.activity.linked others.toList
  have hseen := isSeen_foldl_unmark others.toList known
  have hrun := analyse_of_resolve (Array.getElem?_eq_some_iff.1 hc).1 hres
  generalize others.toList.foldl (fun s l => s.mark l.atom false) t = u at rem hseen hrun
  have remarked := res.remarked.trans rem
  refine ⟨_, u, hrun, remarked, fun a => ?_, ?_⟩
  · by_contra hs
    obtain ⟨hnot, hs⟩ := hseen a (by simpa using hs)
    obtain ⟨m, hm, rfl⟩ := res.seen a hs
    exact hnot (List.mem_map_of_mem (Array.mem_toList_iff.2 hm))
  · refine { res.asserting.conclude above remarked with derived := fun v hv => ?_ }
    obtain ⟨m, hm, holds⟩ := derived v hv
    refine ⟨m, (List.mem_cons.1 hm).elim (fun heq => ?_) fun hm => ?_, holds⟩
    · rw [heq]
      exact List.mem_cons_self ..
    · refine List.mem_cons_of_mem _ (Array.mem_toList_iff.2 ?_)
      exact (u.others_conclude asserted others).mem_iff.2 (Array.mem_toList_iff.1 hm)

theorem remarked_analyse (linked : s.activity.Linked) (key : Nat) : Remarked s (s.analyse key).2 := by
  unfold analyse
  split
  · exact .refl linked
  · have resolved := remarked_resolve linked s.trail.level (s.trail.literals.size + 1) key none 0 #[]
      s.trail.literals.size
    generalize resolve s.trail.level (s.trail.literals.size + 1) s key none 0 #[] s.trail.literals.size =
      outcome at resolved ⊢
    obtain ⟨e | ⟨asserted, others⟩, t⟩ := outcome
    · exact resolved
    · dsimp only
      rw [← Array.foldl_toList]
      exact resolved.trans (remarked_foldl_unmark resolved.activity.linked others.toList)

/-- The analysis of a conflict need not succeed where marks are left over, but what it returns is well
formed. -/
theorem analyse_shape {key : Nat} {c : Array Lit} {learnt : Learnt} {s' : State} (h : s.Coherent)
    (linked : s.activity.Linked) (above : 0 < s.trail.level) (hc : s.clauses[key]? = some c)
    (falsified : ∀ l ∈ c, l.negate ∈ s.trail.literals) (run : s.analyse key = (.ok learnt, s')) :
    s.Shape learnt := by
  have hkey := (Array.getElem?_eq_some_iff.1 hc).1
  rcases hres : resolve s.trail.level (s.trail.literals.size + 1) s key none 0 #[] s.trail.literals.size
    with ⟨e | ⟨asserted, others⟩, t⟩
  · simp only [analyse, if_neg (Nat.not_le.2 hkey), hres] at run
    cases run
  · have asserting := resolve_asserting (.start h linked) hc
      (fun l hl _ => falseBefore_of_mem (falsified l hl)) hres
    have remarked := remarked_analyse linked key
    rw [analyse_of_resolve hkey hres] at run remarked
    cases run
    exact asserting.conclude above remarked

end Defeasible.Search.State
