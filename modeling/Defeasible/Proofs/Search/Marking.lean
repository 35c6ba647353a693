import Defeasible.Search.Conflict
import Defeasible.Proofs.PriorityQueue
import Defeasible.Proofs.Search.Watching
import Mathlib.Data.Finset.Card

/-! The marks of an analysis, which goes down the trail from its end. As long as a marked literal of the
current level is left, the last marked one is of this level. -/

namespace Defeasible.Search.State

variable {s : State}

structure Remarked (s s' : State) : Prop where
  eq : s' = { s with seen := s'.seen, activity := s'.activity, bump := s'.bump }
  size_seen : s'.seen.size = s.seen.size
  activity : PriorityQueue.Rearranged s.activity s'.activity

namespace Remarked

theorem refl (h : s.activity.Linked) : Remarked s s := ⟨rfl, rfl, .refl h⟩

theorem trans {s s' s'' : State} (r : Remarked s s') (r' : Remarked s' s'') : Remarked s s'' where
  eq := by rw [r'.eq, r.eq]
  size_seen := r'.size_seen.trans r.size_seen
  activity := r.activity.trans r'.activity

variable {s' : State}

theorem coherent (r : Remarked s s') (h : s.Coherent) : s'.Coherent := by
  have hsize := r.size_seen
  rw [r.eq]
  exact { h with size_seen := hsize.trans h.size_seen }

theorem trail (r : Remarked s s') : s'.trail = s.trail := by rw [r.eq]

theorem clauses (r : Remarked s s') : s'.clauses = s.clauses := by rw [r.eq]

theorem level (r : Remarked s s') (atom : Nat) : s'.level atom = s.level atom := by rw [r.eq]; rfl

end Remarked

theorem isSeen_mark (s : State) (atom : Nat) (b : Bool) (h : atom < s.seen.size) (a : Nat) :
    (s.mark atom b).isSeen a = if a = atom then b else s.isSeen a := by
  simp only [isSeen, mark, Array.getD_eq_getD_getElem?, Array.getElem?_setIfInBounds]
  grind

theorem remarked_mark (h : s.activity.Linked) (atom : Nat) (b : Bool) : Remarked s (s.mark atom b) :=
  ⟨rfl, by simp [mark], .refl h⟩

theorem remarked_bumpActivity (h : s.activity.Linked) (atom : Nat) :
    Remarked s (s.bumpActivity atom) ∧ (s.bumpActivity atom).seen = s.seen := by
  have hmod := h.modify? atom (· + s.bump)
  unfold bumpActivity
  dsimp only
  split
  · split
    · exact ⟨⟨rfl, rfl, hmod.trans (hmod.linked.mapValues _)⟩, rfl⟩
    · exact ⟨⟨rfl, rfl, hmod⟩, rfl⟩
  · exact ⟨⟨rfl, rfl, hmod⟩, rfl⟩

def pending (s : State) (i : Nat) : Finset Nat :=
  (Finset.range i).filter fun j => (s.trail.literals[j]?).any fun l =>
    s.isSeen l.atom && s.level l.atom == s.trail.level

theorem mem_pending {i j : Nat} : j ∈ s.pending i ↔ j < i ∧
    ∃ l, s.trail.literals[j]? = some l ∧ s.isSeen l.atom = true ∧ s.level l.atom = s.trail.level := by
  simp [pending, Option.any_eq_true]

/-- The state of an analysis that has gone down the trail to place `i`, where marks may be left over from
another one. At least as many literals wait to be resolved as are counted. -/
structure Tracing (s : State) (i unresolved : Nat) (others : Array Lit) : Prop where
  coherent : s.Coherent
  linked : s.activity.Linked
  others_false : ∀ l ∈ others, l.negate ∈ s.trail.literals
  others_level : ∀ l ∈ others, 0 < s.level l.atom ∧ s.level l.atom < s.trail.level
  others_nodup : (others.toList.map Lit.atom).Nodup
  others_seen : ∀ l ∈ others, s.isSeen l.atom = true
  le_card : unresolved ≤ (s.pending i).card

structure Resolving (s : State) (i unresolved : Nat) (others : Array Lit) : Prop where
  coherent : s.Coherent
  linked : s.activity.Linked
  others_false : ∀ l ∈ others, l.negate ∈ s.trail.literals
  others_level : ∀ l ∈ others, 0 < s.level l.atom ∧ s.level l.atom < s.trail.level
  others_nodup : (others.toList.map Lit.atom).Nodup
  others_seen : ∀ l ∈ others, s.isSeen l.atom = true
  seen : ∀ atom, s.isSeen atom = true → (∃ l ∈ others, l.atom = atom) ∨
    ∃ j ∈ s.pending i, ∃ l, s.trail.literals[j]? = some l ∧ l.atom = atom
  card : (s.pending i).card = unresolved

theorem Resolving.tracing {i unresolved : Nat} {others : Array Lit} (r : Resolving s i unresolved others) :
    Tracing s i unresolved others :=
  { r with le_card := Nat.le_of_eq r.card.symm }

def FalseBefore (s : State) (i : Nat) (l : Lit) : Prop := ∃ j < i, s.trail.literals[j]? = some l.negate

theorem Coherent.hasAtom_of_falseBefore (h : s.Coherent) {i : Nat} {l : Lit} (hl : s.FalseBefore i l) :
    s.HasAtom l.atom := by
  obtain ⟨j, -, hj⟩ := hl
  exact h.hasAtom l.negate (Array.mem_of_getElem? hj)

theorem Coherent.falseBefore_of_reason (h : s.Coherent) {i key : Nat} {l : Lit}
    (hl : s.trail.literals[i]? = some l) (hr : s.reason? l.atom = some key) :
    ∃ c, s.clauses[key]? = some c ∧ l ∈ c ∧
      ∀ m ∈ c, some l.atom ≠ some m.atom → s.FalseBefore i m := by
  obtain ⟨c, hc, hmem, hfalse⟩ := h.forced i l key hl hr
  refine ⟨c, hc, hmem, fun m hm hne => hfalse m hm ?_⟩
  rintro rfl
  exact hne rfl

theorem mem_pending_of_remarked {s' : State} (r : Remarked s s') {i j : Nat} : j ∈ s'.pending i ↔ j < i ∧
    ∃ l, s.trail.literals[j]? = some l ∧ s'.isSeen l.atom = true ∧ s.level l.atom = s.trail.level := by
  simp only [mem_pending, r.trail, r.level]

def touch (s : State) (l : Lit) : State := (s.mark l.atom true).bumpActivity l.atom

theorem remarked_touch (h : s.activity.Linked) (l : Lit) : Remarked s (s.touch l) :=
  (remarked_mark h l.atom true).trans
    (remarked_bumpActivity (remarked_mark h l.atom true).activity.linked l.atom).1

theorem isSeen_touch (h : s.activity.Linked) {l : Lit} (hl : l.atom < s.seen.size) (a : Nat) :
    (s.touch l).isSeen a = true ↔ a = l.atom ∨ s.isSeen a = true := by
  have hseen := (remarked_bumpActivity (remarked_mark h l.atom true).activity.linked l.atom).2
  have : (s.touch l).isSeen a = (s.mark l.atom true).isSeen a := by
    unfold isSeen touch
    rw [hseen]
  rw [this, isSeen_mark s l.atom true hl]
  split <;> simp_all

theorem Coherent.eq_of_false (h : s.Coherent) {l m : Lit} (hl : l.negate ∈ s.trail.literals)
    (hm : m.negate ∈ s.trail.literals) (heq : l.atom = m.atom) : l = m := by
  obtain ⟨j, hj⟩ := Array.mem_iff_getElem?.1 hl
  obtain ⟨k, hk⟩ := Array.mem_iff_getElem?.1 hm
  obtain rfl := h.atom_inj j k _ _ hj hk heq
  have := Option.some.inj (hj.symm.trans hk)
  simpa using congrArg Lit.negate this

theorem pending_touch (h : s.Coherent) (linked : s.activity.Linked) {i j : Nat} {l : Lit} (hj : j < i)
    (hjl : s.trail.literals[j]? = some l.negate) : (s.touch l).pending i =
      if s.level l.atom = s.trail.level then insert j (s.pending i) else s.pending i := by
  have hseen := isSeen_touch linked (h.lt_seen (h.hasAtom l.negate (Array.mem_of_getElem? hjl)))
  ext k
  rw [mem_pending_of_remarked (remarked_touch linked l)]
  split
  · next current =>
    rw [Finset.mem_insert, mem_pending]
    constructor
    · rintro ⟨hk, m, hm, hs, hlev⟩
      rcases (hseen _).1 hs with heq | hs
      · exact .inl (h.atom_inj k j m _ hm hjl heq)
      · exact .inr ⟨hk, m, hm, hs, hlev⟩
    · rintro (rfl | ⟨hk, m, hm, hs, hlev⟩)
      · exact ⟨hj, _, hjl, (hseen _).2 (.inl rfl), current⟩
      · exact ⟨hk, m, hm, (hseen _).2 (.inr hs), hlev⟩
  · next lower =>
    rw [mem_pending]
    constructor
    · rintro ⟨hk, m, hm, hs, hlev⟩
      rcases (hseen _).1 hs with heq | hs
      · rw [heq] at hlev
        exact absurd hlev lower
      · exact ⟨hk, m, hm, hs, hlev⟩
    · rintro ⟨hk, m, hm, hs, hlev⟩
      exact ⟨hk, m, hm, (hseen _).2 (.inr hs), hlev⟩

theorem notMem_pending {i j : Nat} {l : Lit} (hjl : s.trail.literals[j]? = some l.negate)
    (new : s.isSeen l.atom = false) : j ∉ s.pending i := by
  rw [mem_pending]
  rintro ⟨-, m, hm, hs, -⟩
  obtain rfl : l.negate = m := Option.some.inj (hjl.symm.trans hm)
  simp [new] at hs

namespace Tracing

variable {i unresolved : Nat} {others : Array Lit}

theorem touch_current (r : Tracing s i unresolved others) {l : Lit} (hl : s.FalseBefore i l)
    (new : s.isSeen l.atom = false) (current : s.level l.atom = s.trail.level) :
    Tracing (s.touch l) i (unresolved + 1) others := by
  have hseen := isSeen_touch r.linked (r.coherent.lt_seen (r.coherent.hasAtom_of_falseBefore hl))
  have rem := remarked_touch r.linked l
  obtain ⟨j, hj, hjl⟩ := hl
  exact
    { coherent := rem.coherent r.coherent
      linked := rem.activity.linked
      others_false := by simpa only [rem.trail] using r.others_false
      others_level := by simpa only [rem.trail, rem.level] using r.others_level
      others_nodup := r.others_nodup
      others_seen := fun m hm => (hseen _).2 (.inr (r.others_seen m hm))
      le_card := by
        rw [pending_touch r.coherent r.linked hj hjl, if_pos current,
          Finset.card_insert_of_notMem (notMem_pending hjl new)]
        exact Nat.succ_le_succ r.le_card }

theorem touch_other (r : Tracing s i unresolved others) {l : Lit} (hl : s.FalseBefore i l)
    (new : s.isSeen l.atom = false) (positive : 0 < s.level l.atom)
    (lower : s.level l.atom ≠ s.trail.level) :
    Tracing (s.touch l) i unresolved (others.push l) := by
  have hseen := isSeen_touch r.linked (r.coherent.lt_seen (r.coherent.hasAtom_of_falseBefore hl))
  have rem := remarked_touch r.linked l
  obtain ⟨j, hj, hjl⟩ := hl
  have hmem := Array.mem_of_getElem? hjl
  have hle : s.level l.atom ≤ s.trail.level := r.coherent.level_le l.negate hmem
  exact
    { coherent := rem.coherent r.coherent
      linked := rem.activity.linked
      others_false := fun m hm => by
        rw [rem.trail]
        rcases Array.mem_push.1 hm with hm | rfl
        · exact r.others_false m hm
        · exact hmem
      others_level := fun m hm => by
        rw [rem.trail, rem.level]
        rcases Array.mem_push.1 hm with hm | rfl
        · exact r.others_level m hm
        · omega
      others_nodup := by
        rw [Array.toList_push, List.map_append, List.map_singleton, List.nodup_append]
        refine ⟨r.others_nodup, List.nodup_singleton _, ?_⟩
        intro a ha b hb
        obtain ⟨m, hm, rfl⟩ := List.mem_map.1 ha
        obtain rfl := List.mem_singleton.1 hb
        intro heq
        have := r.others_seen m (Array.mem_toList_iff.1 hm)
        rw [heq, new] at this
        cases this
      others_seen := fun m hm => by
        rw [hseen]
        rcases Array.mem_push.1 hm with hm | rfl
        · exact .inr (r.others_seen m hm)
        · exact .inl rfl
      le_card := by
        rw [pending_touch r.coherent r.linked hj hjl, if_neg lower]
        exact r.le_card }

end Tracing

namespace Resolving

variable {i unresolved : Nat} {others : Array Lit}

theorem touch_current (r : Resolving s i unresolved others) {l : Lit} (hl : s.FalseBefore i l)
    (new : s.isSeen l.atom = false) (current : s.level l.atom = s.trail.level) :
    Resolving (s.touch l) i (unresolved + 1) others := by
  have traced := r.tracing.touch_current hl new current
  have hseen := isSeen_touch r.linked (r.coherent.lt_seen (r.coherent.hasAtom_of_falseBefore hl))
  obtain ⟨j, hj, hjl⟩ := hl
  have hpending : (s.touch l).pending i = insert j (s.pending i) := by
    rw [pending_touch r.coherent r.linked hj hjl, if_pos current]
  refine { traced with
    seen := fun a ha => ?_
    card := by rw [hpending, Finset.card_insert_of_notMem (notMem_pending hjl new), r.card] }
  rw [hpending, (remarked_touch r.linked l).trail]
  rcases (hseen a).1 ha with rfl | ha
  · exact .inr ⟨j, Finset.mem_insert_self .., _, hjl, rfl⟩
  · rcases r.seen a ha with ho | ⟨k, hk, hm⟩
    · exact .inl ho
    · exact .inr ⟨k, Finset.mem_insert_of_mem hk, hm⟩

theorem touch_other (r : Resolving s i unresolved others) {l : Lit} (hl : s.FalseBefore i l)
    (new : s.isSeen l.atom = false) (positive : 0 < s.level l.atom)
    (lower : s.level l.atom ≠ s.trail.level) :
    Resolving (s.touch l) i unresolved (others.push l) := by
  have traced := r.tracing.touch_other hl new positive lower
  have hseen := isSeen_touch r.linked (r.coherent.lt_seen (r.coherent.hasAtom_of_falseBefore hl))
  obtain ⟨j, hj, hjl⟩ := hl
  have hpending : (s.touch l).pending i = s.pending i := by
    rw [pending_touch r.coherent r.linked hj hjl, if_neg lower]
  refine { traced with
    seen := fun a ha => ?_
    card := by rw [hpending, r.card] }
  rw [hpending, (remarked_touch r.linked l).trail]
  rcases (hseen a).1 ha with rfl | ha
  · exact .inl ⟨l, Array.mem_push_self .., rfl⟩
  · rcases r.seen a ha with ⟨m, hm, rfl⟩ | hp
    · exact .inl ⟨m, Array.mem_push_of_mem _ hm, rfl⟩
    · exact .inr hp

end Resolving

theorem falseBefore_of_mem {l : Lit} (hl : l.negate ∈ s.trail.literals) :
    s.FalseBefore s.trail.literals.size l := by
  obtain ⟨j, hj⟩ := Array.mem_iff_getElem?.1 hl
  exact ⟨j, (Array.getElem?_eq_some_iff.1 hj).1, hj⟩

theorem Tracing.start (h : s.Coherent) (linked : s.activity.Linked) :
    Tracing s s.trail.literals.size 0 #[] where
  coherent := h
  linked := linked
  others_false l hl := absurd hl (Array.not_mem_empty l)
  others_level l hl := absurd hl (Array.not_mem_empty l)
  others_nodup := List.nodup_nil
  others_seen l hl := absurd hl (Array.not_mem_empty l)
  le_card := Nat.zero_le _

theorem Resolving.start (h : s.Coherent) (linked : s.activity.Linked)
    (unmarked : ∀ atom, s.isSeen atom = false) : Resolving s s.trail.literals.size 0 #[] :=
  { Tracing.start h linked with
    seen := fun a ha => by
      rw [unmarked] at ha
      cases ha
    card := by
      rw [Finset.card_eq_zero, Finset.eq_empty_iff_forall_notMem]
      intro j hj
      obtain ⟨-, l, -, hs, -⟩ := mem_pending.1 hj
      rw [unmarked] at hs
      cases hs }

structure Marked (s : State) (pivot : Option Nat) (ls : List Lit) (others : Array Lit) (s' : State)
    (others' : Array Lit) : Prop where
  remarked : Remarked s s'
  others : ∀ l ∈ others, l ∈ others'
  isSeen : ∀ atom, s.isSeen atom = true → s'.isSeen atom = true
  marked : ∀ l ∈ ls, pivot ≠ some l.atom → 0 < s.level l.atom → s'.isSeen l.atom = true

section MarkLits

variable {i unresolved unresolved' : Nat} {pivot : Option Nat} {ls : List Lit} {s' : State}
  {others others' : Array Lit}

theorem markLits_spec {P : State → Nat → Array Lit → Prop}
    (sound : ∀ t n o, P t n o → t.Coherent ∧ t.activity.Linked)
    (current : ∀ t n o l, P t n o → t.FalseBefore i l → t.isSeen l.atom = false →
      t.level l.atom = t.trail.level → P (t.touch l) (n + 1) o)
    (other : ∀ t n o l, P t n o → t.FalseBefore i l → t.isSeen l.atom = false → 0 < t.level l.atom →
      t.level l.atom ≠ t.trail.level → P (t.touch l) n (o.push l))
    (start : P s unresolved others) (falsified : ∀ l ∈ ls, pivot ≠ some l.atom → s.FalseBefore i l)
    (run : markLits s.trail.level pivot ls s unresolved others = (s', unresolved', others')) :
    P s' unresolved' others' ∧ Marked s pivot ls others s' others' := by
  induction ls generalizing s unresolved others with
  | nil =>
    cases run
    exact ⟨start, .refl (sound _ _ _ start).2, fun _ h => h, fun _ h => h, fun _ h => nomatch h⟩
  | cons l ls ih =>
    rw [markLits] at run
    split at run
    · next skip =>
      obtain ⟨kept, m⟩ := ih start (fun m hm => falsified m (List.mem_cons_of_mem _ hm)) run
      refine ⟨kept, m.remarked, m.others, m.isSeen, fun k hk hp hlevel => ?_⟩
      rcases List.mem_cons.1 hk with rfl | hk
      · rcases skip with hpivot | hseen | hzero
        · exact absurd hpivot hp
        · exact m.isSeen _ hseen
        · omega
      · exact m.marked k hk hp hlevel
    · next take =>
      rw [not_or, not_or, Bool.not_eq_true] at take
      obtain ⟨hp, new, hzero⟩ := take
      obtain ⟨coherent, linked⟩ := sound _ _ _ start
      have hl := falsified l (List.mem_cons_self ..) hp
      have hseen := isSeen_touch linked (coherent.lt_seen (coherent.hasAtom_of_falseBefore hl))
      have rem := remarked_touch linked l
      change (if (s.touch l).level l.atom = s.trail.level then _ else _) = _ at run
      rw [rem.level, ← rem.trail] at run
      have rest : ∀ m ∈ ls, pivot ≠ some m.atom → (s.touch l).FalseBefore i m := fun m hm hpm => by
        unfold FalseBefore
        rw [rem.trail]
        exact falsified m (List.mem_cons_of_mem _ hm) hpm
      -- whichever way the literal is taken, the rest of the clause is marked after it
      have combine {mid : Array Lit} (sub : ∀ m ∈ others, m ∈ mid)
          (h : P s' unresolved' others' ∧ Marked (s.touch l) pivot ls mid s' others') :
          P s' unresolved' others' ∧ Marked s pivot (l :: ls) others s' others' := by
        obtain ⟨kept, m⟩ := h
        refine ⟨kept, rem.trans m.remarked, fun k hk => m.others k (sub k hk),
          fun a ha => m.isSeen a ((hseen a).2 (.inr ha)), fun k hk hpk hlevel => ?_⟩
        rcases List.mem_cons.1 hk with rfl | hk
        · exact m.isSeen _ ((hseen _).2 (.inl rfl))
        · exact m.marked k hk hpk (by rwa [rem.level])
      split at run
      · next atCurrent =>
        rw [rem.trail] at atCurrent
        exact combine (fun _ h => h) (ih (current s _ _ l start hl new atCurrent) rest run)
      · next lower =>
        rw [rem.trail] at lower
        exact combine (fun _ h => Array.mem_push_of_mem _ h)
          (ih (other s _ _ l start hl new (by omega) lower) rest run)

theorem Tracing.markLits (r : Tracing s i unresolved others)
    (falsified : ∀ l ∈ ls, pivot ≠ some l.atom → s.FalseBefore i l)
    (run : State.markLits s.trail.level pivot ls s unresolved others = (s', unresolved', others')) :
    Tracing s' i unresolved' others' ∧ Marked s pivot ls others s' others' :=
  markLits_spec (P := fun t n o => Tracing t i n o) (fun _ _ _ r => ⟨r.coherent, r.linked⟩)
    (fun _ _ _ _ r => r.touch_current) (fun _ _ _ _ r => r.touch_other) r falsified run

theorem Resolving.markLits (r : Resolving s i unresolved others)
    (falsified : ∀ l ∈ ls, pivot ≠ some l.atom → s.FalseBefore i l)
    (run : State.markLits s.trail.level pivot ls s unresolved others = (s', unresolved', others')) :
    Resolving s' i unresolved' others' ∧ Marked s pivot ls others s' others' :=
  markLits_spec (P := fun t n o => Resolving t i n o) (fun _ _ _ r => ⟨r.coherent, r.linked⟩)
    (fun _ _ _ _ r => r.touch_current) (fun _ _ _ _ r => r.touch_other) r falsified run

end MarkLits

theorem remarked_markLits (linked : s.activity.Linked) (level : Nat) (pivot : Option Nat) (ls : List Lit)
    (unresolved : Nat) (others : Array Lit) :
    Remarked s (markLits level pivot ls s unresolved others).1 := by
  induction ls generalizing s unresolved others with
  | nil => exact .refl linked
  | cons l ls ih =>
    have touched := remarked_touch linked l
    rw [markLits]
    split
    · exact ih linked _ _
    · dsimp only
      split
      · exact touched.trans (ih touched.activity.linked _ _)
      · exact touched.trans (ih touched.activity.linked _ _)

theorem lastSeen?_none {i : Nat} (h : s.lastSeen? i = none) {k : Nat} {l : Lit} (hk : k < i)
    (hl : s.trail.literals[k]? = some l) : s.isSeen l.atom = false := by
  induction i with
  | zero => omega
  | succ i ih =>
    rw [lastSeen?] at h
    rcases Nat.lt_succ_iff_lt_or_eq.1 hk with hk | rfl
    · split at h
      · exact ih h hk
      · split at h
        · cases h
        · exact ih h hk
    · rw [hl] at h
      dsimp only at h
      split at h
      · cases h
      · next hs => simpa using hs

theorem lastSeen?_some {i j : Nat} {l : Lit} (h : s.lastSeen? i = some (j, l)) :
    j < i ∧ s.trail.literals[j]? = some l ∧ s.isSeen l.atom = true ∧
      ∀ k m, j < k → k < i → s.trail.literals[k]? = some m → s.isSeen m.atom = false := by
  induction i with
  | zero => cases h
  | succ i ih =>
    rw [lastSeen?] at h
    cases hi : s.trail.literals[i]? with
    | none =>
      rw [hi] at h
      obtain ⟨hj, hl, hs, hlast⟩ := ih h
      refine ⟨by omega, hl, hs, fun k m hjk hk hm => ?_⟩
      rcases Nat.lt_succ_iff_lt_or_eq.1 hk with hk | rfl
      · exact hlast k m hjk hk hm
      · rw [hi] at hm
        cases hm
    | some m =>
      rw [hi] at h
      dsimp only at h
      split at h
      · next hs =>
        obtain ⟨rfl, rfl⟩ := Prod.mk.inj (Option.some.inj h)
        exact ⟨Nat.lt_succ_self _, hi, hs, fun k n hjk hk _ => by omega⟩
      · next hns =>
        obtain ⟨hj, hl, hs, hlast⟩ := ih h
        refine ⟨by omega, hl, hs, fun k n hjk hk hn => ?_⟩
        rcases Nat.lt_succ_iff_lt_or_eq.1 hk with hk | rfl
        · exact hlast k n hjk hk hn
        · obtain rfl : m = n := Option.some.inj (hi.symm.trans hn)
          simpa using hns

theorem Marked.pending_subset {i : Nat} {pivot : Option Nat} {ls : List Lit} {others others' : Array Lit}
    {s' : State} (m : Marked s pivot ls others s' others') : s.pending i ⊆ s'.pending i := by
  intro j hj
  obtain ⟨hj, l, hl, hs, hlevel⟩ := mem_pending.1 hj
  exact (mem_pending_of_remarked m.remarked).2 ⟨hj, l, hl, m.isSeen _ hs, hlevel⟩

theorem le_of_lastSeen {i j k : Nat} {l : Lit} (last : s.lastSeen? i = some (j, l))
    (hk : k ∈ s.pending i) : k ≤ j := by
  obtain ⟨hk, m, hm, hs, -⟩ := mem_pending.1 hk
  obtain ⟨-, -, -, hlast⟩ := lastSeen?_some last
  by_contra hlt
  rw [hlast k m (by omega) hk hm] at hs
  cases hs

structure Asserting (s : State) (asserted : Lit) (others : Array Lit) : Prop where
  asserted_false : asserted.negate ∈ s.trail.literals
  asserted_level : s.level asserted.atom = s.trail.level
  others_false : ∀ l ∈ others, l.negate ∈ s.trail.literals
  others_level : ∀ l ∈ others, 0 < s.level l.atom ∧ s.level l.atom < s.trail.level
  others_nodup : (others.toList.map Lit.atom).Nodup

theorem Remarked.asserting {s' : State} (r : Remarked s s') {asserted : Lit} {others : Array Lit}
    (a : s'.Asserting asserted others) : s.Asserting asserted others := by
  obtain ⟨h1, h2, h3, h4, h5⟩ := a
  simp only [r.trail, r.level] at h1 h2 h3 h4
  exact ⟨h1, h2, h3, h4, h5⟩

namespace Tracing

variable {i j unresolved : Nat} {others : Array Lit} {l : Lit}

theorem exists_pending (r : Tracing s i unresolved others) (pos : 0 < unresolved) :
    ∃ j, j ∈ s.pending i :=
  Finset.card_pos.1 (Nat.lt_of_lt_of_le pos r.le_card)

theorem lastSeen?_isSome (r : Tracing s i unresolved others) (pos : 0 < unresolved) :
    ∃ j l, s.lastSeen? i = some (j, l) := by
  cases h : s.lastSeen? i with
  | some last => exact ⟨_, _, rfl⟩
  | none =>
    obtain ⟨j, hj⟩ := r.exists_pending pos
    obtain ⟨hj, l, hl, hs, -⟩ := mem_pending.1 hj
    rw [lastSeen?_none h hj hl] at hs
    cases hs

theorem lastSeen_mem_pending (r : Tracing s i unresolved others) (pos : 0 < unresolved)
    (last : s.lastSeen? i = some (j, l)) : j ∈ s.pending i := by
  obtain ⟨hj, hl, hs, -⟩ := lastSeen?_some last
  obtain ⟨k, hk⟩ := r.exists_pending pos
  have hkj := le_of_lastSeen last hk
  obtain ⟨-, m, hm, -, hlevel⟩ := mem_pending.1 hk
  have h1 := r.coherent.level_mono hm hl hkj
  have h2 := r.coherent.level_le l (Array.mem_of_getElem? hl)
  exact mem_pending.2 ⟨hj, l, hl, hs, by omega⟩

theorem level_lastSeen (r : Tracing s i unresolved others) (pos : 0 < unresolved)
    (last : s.lastSeen? i = some (j, l)) : s.level l.atom = s.trail.level := by
  obtain ⟨-, hl, -⟩ := lastSeen?_some last
  obtain ⟨-, m, hm, -, hlevel⟩ := mem_pending.1 (r.lastSeen_mem_pending pos last)
  obtain rfl : l = m := Option.some.inj (hl.symm.trans hm)
  exact hlevel

theorem isSeen_unmark (r : Tracing s i unresolved others) (last : s.lastSeen? i = some (j, l))
    (a : Nat) : (s.mark l.atom false).isSeen a = true ↔ a ≠ l.atom ∧ s.isSeen a = true := by
  obtain ⟨-, hl, -⟩ := lastSeen?_some last
  have hsize := r.coherent.lt_seen (r.coherent.hasAtom l (Array.mem_of_getElem? hl))
  rw [isSeen_mark s l.atom false hsize]
  split <;> simp_all

theorem pending_unmark (r : Tracing s i unresolved others) (last : s.lastSeen? i = some (j, l)) :
    (s.mark l.atom false).pending j = (s.pending i).erase j := by
  have hseen := r.isSeen_unmark last
  obtain ⟨hj, hl, -⟩ := lastSeen?_some last
  ext k
  rw [Finset.mem_erase, mem_pending_of_remarked (remarked_mark r.linked l.atom false), mem_pending]
  constructor
  · rintro ⟨hk, m, hm, hs, hlevel⟩
    exact ⟨by omega, by omega, m, hm, ((hseen _).1 hs).2, hlevel⟩
  · rintro ⟨hne, hk, m, hm, hs, hlevel⟩
    have hkj := le_of_lastSeen last (mem_pending.2 ⟨hk, m, hm, hs, hlevel⟩)
    refine ⟨by omega, m, hm, (hseen _).2 ⟨fun heq => hne ?_, hs⟩, hlevel⟩
    exact r.coherent.atom_inj k j m l hm hl heq

theorem unmark (r : Tracing s i unresolved others) (pos : 0 < unresolved)
    (last : s.lastSeen? i = some (j, l)) :
    Tracing (s.mark l.atom false) j (unresolved - 1) others := by
  have rem := remarked_mark r.linked l.atom false
  have hlevel := r.level_lastSeen pos last
  exact
    { coherent := rem.coherent r.coherent
      linked := rem.activity.linked
      others_false := r.others_false
      others_level := r.others_level
      others_nodup := r.others_nodup
      others_seen := fun m hm => (r.isSeen_unmark last _).2 ⟨fun heq => by
        have := (r.others_level m hm).2
        rw [heq, hlevel] at this
        omega, r.others_seen m hm⟩
      le_card := by
        rw [r.pending_unmark last, Finset.card_erase_of_mem (r.lastSeen_mem_pending pos last)]
        exact Nat.sub_le_sub_right r.le_card 1 }

theorem exists_reason (r : Tracing s i unresolved others) (more : 1 < unresolved)
    (above : 0 < s.trail.level) (last : s.lastSeen? i = some (j, l)) :
    ∃ key, s.reason? l.atom = some key := by
  have hlevel := r.level_lastSeen (by omega) last
  obtain ⟨-, hl, -⟩ := lastSeen?_some last
  cases hr : s.reason? l.atom with
  | some key => exact ⟨key, rfl⟩
  | none =>
    have hstart := r.coherent.decided j l hl hr (by omega)
    obtain ⟨k, hk, hne⟩ := Finset.exists_mem_ne (Nat.lt_of_lt_of_le more r.le_card) j
    have hkj := le_of_lastSeen last hk
    obtain ⟨-, m, hm, -, hlm⟩ := mem_pending.1 hk
    have := (r.coherent.level_iff k m hm _ j hstart).1 (by omega)
    omega

theorem asserting (r : Tracing s i unresolved others) (pos : 0 < unresolved)
    (last : s.lastSeen? i = some (j, l)) : s.Asserting l.negate others where
  asserted_false := by
    rw [Lit.negate_negate]
    exact Array.mem_of_getElem? (lastSeen?_some last).2.1
  asserted_level := by
    rw [Lit.atom_negate]
    exact r.level_lastSeen pos last
  others_false := r.others_false
  others_level := r.others_level
  others_nodup := r.others_nodup

end Tracing

theorem Resolving.unmark {i j unresolved : Nat} {others : Array Lit} {l : Lit}
    (r : Resolving s i unresolved others) (pos : 0 < unresolved) (last : s.lastSeen? i = some (j, l)) :
    Resolving (s.mark l.atom false) j (unresolved - 1) others := by
  have hpending := r.tracing.pending_unmark last
  refine { r.tracing.unmark pos last with
    seen := fun a ha => ?_
    card := by
      rw [hpending, Finset.card_erase_of_mem (r.tracing.lastSeen_mem_pending pos last), r.card] }
  obtain ⟨hne, ha⟩ := (r.tracing.isSeen_unmark last a).1 ha
  obtain ⟨-, hl, -⟩ := lastSeen?_some last
  rcases r.seen a ha with ho | ⟨k, hk, m, hm, rfl⟩
  · exact .inl ho
  · refine .inr ⟨k, ?_, m, hm, rfl⟩
    rw [hpending, Finset.mem_erase]
    refine ⟨fun heq => hne ?_, hk⟩
    subst heq
    exact congrArg Lit.atom (Option.some.inj (hm.symm.trans hl))

theorem remarked_foldl_unmark (linked : s.activity.Linked) (ls : List Lit) :
    Remarked s (ls.foldl (fun s l => s.mark l.atom false) s) := by
  induction ls generalizing s with
  | nil => exact .refl linked
  | cons l ls ih =>
    have rem := remarked_mark linked l.atom false
    exact rem.trans (ih rem.activity.linked)

theorem isSeen_foldl_unmark (ls : List Lit) (known : ∀ l ∈ ls, l.atom < s.seen.size) (atom : Nat)
    (seen : (ls.foldl (fun s l => s.mark l.atom false) s).isSeen atom = true) :
    atom ∉ ls.map Lit.atom ∧ s.isSeen atom = true := by
  induction ls generalizing s with
  | nil => exact ⟨List.not_mem_nil, seen⟩
  | cons l ls ih =>
    have known' : ∀ m ∈ ls, m.atom < (s.mark l.atom false).seen.size := fun m hm => by
      simpa [mark] using known m (List.mem_cons_of_mem _ hm)
    obtain ⟨hnot, hs⟩ := ih known' seen
    rw [isSeen_mark s l.atom false (known l (List.mem_cons_self ..))] at hs
    split at hs
    · cases hs
    · next hne =>
      rw [List.map_cons, List.mem_cons, not_or]
      exact ⟨⟨hne, hnot⟩, hs⟩

end Defeasible.Search.State
