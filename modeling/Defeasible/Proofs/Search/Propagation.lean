import Defeasible.Proofs.Search.Watching

/-! Propagation keeps a state coherent, and its clauses watched. If it ends without conflict, then no
clause that is watched has anything more to say; if it ends in a conflict, then a clause is false. -/

namespace Defeasible.Search.State

variable {s : State}

section Reorder

variable {key : Nat} {c d : Array Lit}

theorem getElem?_setClauses (hc : s.clauses[key]? = some c) (k : Nat) :
    (s.clauses.setIfInBounds key d)[k]? = if k = key then some d else s.clauses[k]? := by
  have := (Array.getElem?_eq_some_iff.1 hc).1
  rw [Array.getElem?_setIfInBounds]
  grind

theorem getD_setClauses (hc : s.clauses[key]? = some c) (k : Nat) :
    (s.clauses.setIfInBounds key d).getD k #[] = if k = key then d else s.clauses.getD k #[] := by
  simp only [Array.getD_eq_getD_getElem?, getElem?_setClauses hc]
  split <;> rfl

theorem getD_of_getElem? (hc : s.clauses[key]? = some c) : s.clauses.getD key #[] = c := by
  simp [hc]

theorem eq_or_eq_or_exists_of_mem {a b l : Lit} (first : d[0]? = some a) (second : d[1]? = some b)
    (hl : l ∈ d) : l = a ∨ l = b ∨ ∃ p, 2 ≤ p ∧ d[p]? = some l := by
  obtain ⟨p, hp⟩ := Array.mem_iff_getElem?.1 hl
  match p, hp with
  | 0, hp => exact .inl (Option.some.inj (hp.symm.trans first))
  | 1, hp => exact .inr (.inl (Option.some.inj (hp.symm.trans second)))
  | p + 2, hp => exact .inr (.inr ⟨p + 2, Nat.le_add_left 2 p, hp⟩)

theorem Coherent.reorder (h : s.Coherent) (hc : s.clauses[key]? = some c) (perm : d.Perm c)
    {watches : Array (Array Nat)} (size : watches.size = s.watches.size) :
    { s with clauses := s.clauses.setIfInBounds key d, watches }.Coherent := by
  apply h.withClauses (size.trans h.size_watches)
  · intro k e he
    rw [getElem?_setClauses hc] at he
    split at he
    · cases he
      refine ⟨by rw [perm.size_eq]; exact h.clause_size key c hc,
        fun l hl => h.clause_hasAtom key c hc l (perm.mem_iff.1 hl), ?_⟩
      exact ((Array.perm_iff_toList_perm.1 perm).map Lit.atom).nodup_iff.2 (h.clause_nodup key c hc)
    · exact ⟨h.clause_size k e he, h.clause_hasAtom k e he, h.clause_nodup k e he⟩
  · intro k e he
    rw [getElem?_setClauses hc]
    split
    · next hk =>
      subst hk
      rw [hc] at he
      cases he
      exact ⟨d, rfl, fun l => perm.mem_iff⟩
    · exact ⟨e, he, fun l => Iff.rfl⟩

theorem Extends.reorder (hc : s.clauses[key]? = some c) (perm : d.Perm c) (watches : Array (Array Nat)) :
    Extends s { s with clauses := s.clauses.setIfInBounds key d, watches } :=
  { Extends.refl s with
    size_clauses := Array.size_setIfInBounds
    clauses := fun k e he => by
      rw [getElem?_setClauses hc]
      split
      · next hk =>
        subst hk
        rw [hc] at he
        cases he
        exact ⟨d, rfl, perm⟩
      · exact ⟨e, he, .rfl⟩ }

theorem Guarded.reorder {m : Nat} (g : s.Guarded m) (hc : s.clauses[key]? = some c)
    (pairs : ∀ a b, WatchPair d a b → ∀ i < m, s.trail.literals[i]? = some a.negate →
      b ∈ s.trail.literals ∧ s.level b.atom ≤ s.level a.atom) (watches : Array (Array Nat)) :
    { s with clauses := s.clauses.setIfInBounds key d, watches }.Guarded m := by
  intro k e a b he hp i hi hf
  rw [getElem?_setClauses hc] at he
  split at he
  · cases he
    exact pairs a b hp i hi hf
  · exact g k e a b he hp i hi hf

theorem Guarded.turned {f : Lit} {m : Nat} (g : s.Guarded m) (h : s.Coherent)
    (hc : s.clauses[key]? = some c) : (s.setClause key (turn f c)).Guarded m :=
  g.reorder hc (fun a b hp => g key c a b hc ((watchPair_turn (h.clause_size key c hc) a b).1 hp)) _

end Reorder

theorem moveWatch_eq {key place : Nat} {d : Array Lit} {new : Lit} (size : 2 ≤ d.size)
    (hnew : d[place]? = some new) : s.moveWatch key d place =
      { s with
        clauses := s.clauses.setIfInBounds key (d.swapIfInBounds 1 place)
        watches := s.watches.modify new.watchIndex (·.push key) } := by
  have hlt := (Array.getElem?_eq_some_iff.1 hnew).1
  have hsecond : (d.swapIfInBounds 1 place).getD 1 default = new := by
    rw [Array.getD_eq_getD_getElem?, getElem?_swapIfInBounds (by omega) hlt]
    grind
  simp only [moveWatch, setClause, watch, hsecond]

section Assign

variable {l : Lit} {reason : Option Nat}

theorem Extends.assign (h : s.Coherent) (hasAtom : s.HasAtom l.atom) (free : s.value? l.atom = none)
    (key : Nat) : Extends s (s.assign l (some key)) := by
  have hrea := h.lt_reasons hasAtom
  refine { Extends.refl s with
    size_values := by simp [State.assign]
    literals := fun i m hi => ?_
    level := fun m hm => h.level_assign_of_mem _ hasAtom free hm
    reason := fun m hm => h.reason?_assign_of_mem _ hasAtom free hm
    forced := fun m hm hn => ?_ }
  · have hlt := (Array.getElem?_eq_some_iff.1 hi).1
    rw [literals_assign, Array.getElem?_push, if_neg (by omega), hi]
  · obtain rfl : m = l := (Array.mem_push.1 hm).resolve_left hn
    rw [reason?_assign m (some key) hrea, if_pos rfl]
    rfl

theorem Guarded.assign {m : Nat} (g : s.Guarded m) (h : s.Coherent) (reason : Option Nat)
    (hasAtom : s.HasAtom l.atom) (free : s.value? l.atom = none) (hm : m ≤ s.trail.literals.size) :
    (s.assign l reason).Guarded m := by
  intro key c a b hc hp i hi hf
  rw [literals_assign, Array.getElem?_push_lt (by omega)] at hf
  have hf : s.trail.literals[i]? = some a.negate := by
    rw [Array.getElem?_eq_getElem (by omega), hf]
  obtain ⟨hb, hle⟩ := g key c a b hc hp i hi hf
  refine ⟨Array.mem_push_of_mem _ hb, ?_⟩
  have ha := Array.mem_of_getElem? hf
  have hla := h.level_assign_of_mem reason hasAtom free ha
  rw [Lit.atom_negate] at hla
  rw [h.level_assign_of_mem _ hasAtom free hb, hla]
  exact hle

end Assign

/-- The state and the list of a literal that has become false, on the way through the list. Up to place
`i`, every clause of the list has a true watched literal. -/
structure Visiting (f : Lit) (j : Nat) (s : State) (keys : Array Nat) (i : Nat) : Prop where
  coherent : s.Coherent
  falsified : s.trail.literals[j]? = some f.negate
  watched : Watched (s.watches.setIfInBounds f.watchIndex keys) s.clauses
  visited : ∀ p < i, ∀ key, keys[p]? = some key → ∃ c a b, s.clauses[key]? = some c ∧
    WatchPair c a b ∧ a ∈ s.trail.literals

namespace Visiting

variable {f : Lit} {j : Nat} {keys : Array Nat} {i : Nat}

theorem start {l : Lit} (h : s.Coherent) (w : Watched s.watches s.clauses)
    (hl : s.trail.literals[j]? = some l) :
    Visiting l.negate j { s with watches := s.watches.setIfInBounds l.negate.watchIndex #[] }
      (s.watches.getD l.negate.watchIndex #[]) 0 where
  coherent := { h with size_watches := by simpa using h.size_watches }
  falsified := by simpa using hl
  watched k key := by
    have hlt : l.negate.watchIndex < s.watches.size :=
      h.watchIndex_lt (h.hasAtom l (Array.mem_of_getElem? hl))
    refine Eq.trans ?_ (w k key)
    rw [getD_setIfInBounds (by simpa using hlt), getD_setIfInBounds hlt]
    by_cases heq : k = l.negate.watchIndex
    · rw [if_pos heq, heq]
    · rw [if_neg heq, if_neg heq]
  visited p hp := absurd hp (Nat.not_lt_zero p)

theorem watchIndex_lt (v : Visiting f j s keys i) : f.watchIndex < s.watches.size :=
  v.coherent.watchIndex_lt (v.coherent.hasAtom f.negate (Array.mem_of_getElem? v.falsified))

theorem count_keys (v : Visiting f j s keys i) (key : Nat) :
    keys.count key = watchCount (s.clauses.getD key #[]) f.watchIndex := by
  have := v.watched f.watchIndex key
  rwa [Array.getD_eq_getD_getElem?, Array.getElem?_setIfInBounds_self_of_lt v.watchIndex_lt] at this

theorem exists_clause (v : Visiting f j s keys i) {key : Nat} (hk : key ∈ keys) :
    ∃ d, s.clauses[key]? = some d ∧ (d[0]? = some f ∨ d[1]? = some f) := by
  have hpos := Array.count_pos_iff.2 hk
  rw [v.count_keys] at hpos
  cases hc : s.clauses[key]? with
  | none => simp [hc, watchCount] at hpos
  | some d =>
    refine ⟨d, rfl, ?_⟩
    by_contra hn
    have hmap (o : Option Lit) (ho : o ≠ some f) : o.map Lit.watchIndex ≠ some f.watchIndex := by
      intro h
      obtain ⟨m, rfl, hm⟩ := Option.map_eq_some_iff.1 h
      exact ho (congrArg some (Lit.watchIndex_inj hm))
    rw [not_or] at hn
    simp [hc, watchCount, hmap _ hn.1, hmap _ hn.2] at hpos

theorem count_le_one (v : Visiting f j s keys i) (key : Nat) : keys.count key ≤ 1 := by
  rw [v.count_keys]
  cases hc : s.clauses[key]? with
  | none => simp [hc, watchCount]
  | some d =>
    have hsize := v.coherent.clause_size key d hc
    have hne : ¬ (d[0]?.map Lit.watchIndex = some f.watchIndex ∧
        d[1]?.map Lit.watchIndex = some f.watchIndex) := by
      rintro ⟨h0, h1⟩
      obtain ⟨a, ha, hwa⟩ := Option.map_eq_some_iff.1 h0
      obtain ⟨b, hb, hwb⟩ := Option.map_eq_some_iff.1 h1
      have := v.coherent.clause_inj hc ha hb (congrArg Lit.atom (Lit.watchIndex_inj (hwa.trans hwb.symm)))
      omega
    simp only [hc, Option.getD_some, Array.getD_eq_getD_getElem?, watchCount]
    split <;> split <;> simp_all

theorem keys_inj (v : Visiting f j s keys i) {p q key : Nat} (hp : keys[p]? = some key)
    (hq : keys[q]? = some key) : p = q := by
  have hnodup : keys.toList.Nodup := List.nodup_iff_count.2 fun k => by
    rw [Array.count_toList]
    exact v.count_le_one k
  have hlt : p < keys.toList.length := (Array.getElem?_eq_some_iff.1 hp).1
  exact (List.getElem?_inj hlt hnodup).1 (by simp [hp, hq])

theorem turned (v : Visiting f j s keys i) {key : Nat} {c : Array Lit}
    (hc : s.clauses[key]? = some c) : Visiting f j (s.setClause key (turn f c)) keys i where
  coherent := v.coherent.reorder hc (turn_perm f c) rfl
  falsified := v.falsified
  watched := by
    intro w k
    refine (v.watched w k).trans ?_
    change _ = watchCount ((s.clauses.setIfInBounds key (turn f c)).getD k #[]) w
    rw [getD_setClauses hc]
    split
    · next hk =>
      subst hk
      rw [watchCount_turn (v.coherent.clause_size k c hc), getD_of_getElem? hc]
    · rfl
  visited := by
    intro p hp k hk
    obtain ⟨e, a, b, he, hpair, ha⟩ := v.visited p hp k hk
    change ∃ c' a b, (s.clauses.setIfInBounds key (turn f c))[k]? = some c' ∧ _
    rw [getElem?_setClauses hc]
    split
    · next hkey =>
      subst hkey
      obtain rfl : c = e := Option.some.inj (hc.symm.trans he)
      exact ⟨_, a, b, rfl, (watchPair_turn (v.coherent.clause_size k c hc) a b).2 hpair, ha⟩
    · exact ⟨e, a, b, he, hpair, ha⟩

theorem skip (v : Visiting f j s keys i) {key : Nat} (hk : keys[i]? = some key) {c : Array Lit}
    {a b : Lit} (hc : s.clauses[key]? = some c) (hp : WatchPair c a b) (ha : a ∈ s.trail.literals) :
    Visiting f j s keys (i + 1) :=
  { v with
    visited := fun p hlt k hkp => by
      rcases Nat.lt_succ_iff_lt_or_eq.1 hlt with hlt | rfl
      · exact v.visited p hlt k hkp
      · obtain rfl : key = k := Option.some.inj (hk.symm.trans hkp)
        exact ⟨c, a, b, hc, hp, ha⟩ }

theorem forced (v : Visiting f j s keys i) {key : Nat} (hk : keys[i]? = some key) {d : Array Lit}
    {l : Lit} (hc : s.clauses[key]? = some d) (first : d[0]? = some l) (second : d[1]? = some f)
    (free : s.value? l.atom = none)
    (rest : ∀ p, 2 ≤ p → ∀ m, d[p]? = some m → m.negate ∈ s.trail.literals) :
    Visiting f j (s.assign l (some key)) keys (i + 1) := by
  have hasAtom := v.coherent.clause_hasAtom key d hc l (Array.mem_of_getElem? first)
  have ext := Extends.assign v.coherent hasAtom free key
  have assigned : Visiting f j (s.assign l (some key)) keys i :=
    { coherent := by
        refine v.coherent.assign hasAtom free (fun k heq => ?_) (fun heq => by cases heq)
        obtain rfl : key = k := Option.some.inj heq
        refine ⟨d, hc, Array.mem_of_getElem? first, fun m hm hne => ?_⟩
        rcases eq_or_eq_or_exists_of_mem first second hm with heq | rfl | ⟨p, hle, hp⟩
        · exact absurd heq hne
        · exact Array.mem_of_getElem? v.falsified
        · exact rest p hle m hp
      falsified := ext.literals j _ v.falsified
      watched := v.watched
      visited := fun p hp k hkp => by
        obtain ⟨e, a, b, he, hpair, ha⟩ := v.visited p hp k hkp
        exact ⟨e, a, b, he, hpair, ext.mem ha⟩ }
  exact assigned.skip hk hc (.inl ⟨first, second⟩) (Array.mem_push_self ..)

theorem watched_moved (v : Visiting f j s keys i) {key : Nat} (hk : keys[i]? = some key) {d : Array Lit}
    {place : Nat} {new : Lit} (hc : s.clauses[key]? = some d) (second : d[1]? = some f)
    (hplace : 2 ≤ place) (hnew : d[place]? = some new) :
    Watched ((s.watches.modify new.watchIndex (·.push key)).setIfInBounds f.watchIndex (swapRemove keys i))
      (s.clauses.setIfInBounds key (d.swapIfInBounds 1 place)) := by
  have hsize := v.coherent.clause_size key d hc
  have hlt := (Array.getElem?_eq_some_iff.1 hnew).1
  have hasAtom := v.coherent.clause_hasAtom key d hc new (Array.mem_of_getElem? hnew)
  have hnewlt := v.coherent.watchIndex_lt hasAtom
  have hne : new.watchIndex ≠ f.watchIndex := fun heq => by
    have := v.coherent.clause_inj hc hnew second (congrArg Lit.atom (Lit.watchIndex_inj heq))
    omega
  have hfirst : (d.swapIfInBounds 1 place)[0]? = d[0]? := by
    rw [getElem?_swapIfInBounds (by omega) hlt, if_neg (by omega), if_neg (by omega)]
  have hsecond : (d.swapIfInBounds 1 place)[1]? = some new := by
    rw [getElem?_swapIfInBounds (by omega) hlt, if_neg (by omega), if_pos rfl, hnew]
  intro w k
  have hold := v.watched w k
  have hcount := count_swapRemove hk k
  rw [getD_setIfInBounds v.watchIndex_lt] at hold
  rw [getD_setIfInBounds (by simpa using v.watchIndex_lt), getD_modify hnewlt, getD_setClauses hc]
  by_cases hkey : k = key
  · subst hkey
    rw [getD_of_getElem? hc] at hold
    rw [if_pos (rfl : k = k)]
    simp only [watchCount, hfirst, hsecond, second, Option.map_some, Option.some.injEq] at hold ⊢
    by_cases hwf : w = f.watchIndex
    · subst hwf
      rw [if_pos rfl, if_pos rfl] at hold
      rw [if_pos rfl, if_neg hne]
      rw [if_pos rfl] at hcount
      omega
    · rw [if_neg hwf, if_neg (Ne.symm hwf)] at hold
      rw [if_neg hwf]
      by_cases hwn : w = new.watchIndex
      · subst hwn
        rw [if_pos rfl, if_pos rfl, Array.count_push_self]
        omega
      · rw [if_neg hwn, if_neg (Ne.symm hwn)]
        exact hold
  · rw [if_neg hkey, ← hold]
    split
    · simp_all [Ne.symm hkey]
    · split
      · rw [Array.count_push_of_ne (Ne.symm hkey)]
      · rfl

theorem moved (v : Visiting f j s keys i) {key : Nat} (hk : keys[i]? = some key) {d : Array Lit}
    {place : Nat} {new : Lit} (hc : s.clauses[key]? = some d) (second : d[1]? = some f)
    (hplace : 2 ≤ place) (hnew : d[place]? = some new) :
    Visiting f j (s.moveWatch key d place) (swapRemove keys i) i := by
  rw [moveWatch_eq (v.coherent.clause_size key d hc) hnew]
  refine
    { coherent := v.coherent.reorder hc (perm_swapIfInBounds _ _ _) (by simp)
      falsified := v.falsified
      watched := v.watched_moved hk hc second hplace hnew
      visited := fun p hp k hkp => ?_ }
  rw [getElem?_swapRemove hp (Array.getElem?_eq_some_iff.1 hk).1] at hkp
  obtain ⟨e, a, b, he, hpair, ha⟩ := v.visited p hp k hkp
  refine ⟨e, a, b, ?_, hpair, ha⟩
  change (s.clauses.setIfInBounds key _)[k]? = some e
  rw [getElem?_setClauses hc, if_neg, he]
  rintro rfl
  have := v.keys_inj hkp hk
  omega

theorem guarded_moved (v : Visiting f j s keys i) {m key place : Nat} {d : Array Lit} {new : Lit}
    (g : s.Guarded m) (hc : s.clauses[key]? = some d) (second : d[1]? = some f) (hplace : 2 ≤ place)
    (hnew : d[place]? = some new) (notFalse : new.negate ∉ s.trail.literals) :
    (s.moveWatch key d place).Guarded m := by
  have hsize := v.coherent.clause_size key d hc
  have hlt := (Array.getElem?_eq_some_iff.1 hnew).1
  rw [moveWatch_eq hsize hnew]
  refine g.reorder hc (fun a b hp k hk ha => ?_) _
  simp only [WatchPair, getElem?_swapIfInBounds (show 1 < d.size by omega) hlt] at hp
  rw [if_neg (by omega), if_neg (by omega), if_neg (by omega), if_true, hnew] at hp
  rcases hp with ⟨h0, h1⟩ | ⟨h1, -⟩
  · -- the other watched literal was made good by `f`, which is false
    have := (g key d a f hc (.inl ⟨h0, second⟩) k hk ha).1
    exact absurd (Array.mem_of_getElem? v.falsified) (v.coherent.not_both this)
  · obtain rfl : new = a := Option.some.inj h1
    exact absurd (Array.mem_of_getElem? ha) notFalse

theorem exists_turned (v : Visiting f j s keys i) {key : Nat} (hk : keys[i]? = some key) :
    ∃ c other, s.clauses[key]? = some c ∧ (turn f c)[0]? = some other ∧ (turn f c)[1]? = some f ∧
      (s.setClause key (turn f c)).clauses[key]? = some (turn f c) ∧
      Visiting f j (s.setClause key (turn f c)) keys i := by
  obtain ⟨c, hc, hf⟩ := v.exists_clause (Array.mem_of_getElem? hk)
  have hsize := v.coherent.clause_size key c hc
  have hlt : 0 < (turn f c).size := by
    rw [(turn_perm f c).size_eq]
    omega
  exact ⟨c, _, hc, Array.getElem?_eq_getElem hlt, turn_second hsize hf,
    (getElem?_setClauses hc key).trans (if_pos rfl), v.turned hc⟩

theorem guarded_succ (v : Visiting f j s keys i) (last : keys.size ≤ i)
    (starts : ∀ x ∈ s.trail.starts, x ≤ j) (g : s.Guarded j) : s.Guarded (j + 1) := by
  intro key c a b hc hp k hk ha
  rcases Nat.lt_succ_iff_lt_or_eq.1 hk with hk | rfl
  · exact g key c a b hc hp k hk ha
  · -- the watched literal is `f`, so the clause is in the list
    have heq : f.negate = a.negate := Option.some.inj (v.falsified.symm.trans ha)
    obtain rfl : f = a := by rw [← Lit.negate_negate f, heq, Lit.negate_negate]
    have hmem : key ∈ keys := by
      rw [← Array.count_pos_iff, v.count_keys, getD_of_getElem? hc]
      exact hp.watchCount_pos
    obtain ⟨p, hkp⟩ := Array.mem_iff_getElem?.1 hmem
    have hlt : p < i := Nat.lt_of_lt_of_le (Array.getElem?_eq_some_iff.1 hkp).1 last
    obtain ⟨e, a', b', he, hp', ha'⟩ := v.visited p hlt key hkp
    obtain rfl : c = e := Option.some.inj (hc.symm.trans he)
    have hfalse := Array.mem_of_getElem? ha
    have hb : b ∈ s.trail.literals := by
      have hnot := v.coherent.not_both ha'
      rcases hp with ⟨h0, h1⟩ | ⟨h1, h0⟩ <;> rcases hp' with ⟨h0', h1'⟩ | ⟨h1', h0'⟩ <;>
        simp_all
    refine ⟨hb, Nat.le_trans (v.coherent.level_le b hb) (Nat.le_of_eq ?_)⟩
    exact (v.coherent.level_eq_current ha starts).symm

end Visiting

theorem findWatch_some {d : Array Lit} {fuel i place : Nat} (h : s.findWatch d fuel i = some place) :
    i ≤ place ∧ ∃ l, d[place]? = some l ∧ s.litValue? l ≠ some false := by
  induction fuel generalizing i with
  | zero => simp [findWatch] at h
  | succ fuel ih =>
    simp only [findWatch] at h
    split at h
    · cases h
    · next l hl =>
      split at h
      · next hopen =>
        obtain rfl : i = place := Option.some.inj h
        exact ⟨Nat.le_refl _, l, hl, hopen⟩
      · obtain ⟨hle, hrest⟩ := ih h
        exact ⟨by omega, hrest⟩

theorem findWatch_none {d : Array Lit} {fuel i : Nat} (h : s.findWatch d fuel i = none)
    (bound : d.size ≤ i + fuel) (p : Nat) (hp : i ≤ p) (l : Lit) (hl : d[p]? = some l) :
    s.litValue? l = some false := by
  induction fuel generalizing i with
  | zero =>
    have := (Array.getElem?_eq_some_iff.1 hl).1
    omega
  | succ fuel ih =>
    simp only [findWatch] at h
    split at h
    · next hn =>
      have := Array.getElem?_eq_none_iff.1 hn
      have := (Array.getElem?_eq_some_iff.1 hl).1
      omega
    · next m hm =>
      split at h
      · cases h
      · next hfalse =>
        rcases Nat.eq_or_lt_of_le hp with rfl | hlt
        · obtain rfl : m = l := Option.some.inj (hm.symm.trans hl)
          simpa using hfalse
        · exact ih h (by omega) hlt

theorem Coherent.rest_false (h : s.Coherent) {d : Array Lit} (none : s.findWatch d (d.size - 2) 2 = none)
    (p : Nat) (hp : 2 ≤ p) (l : Lit) (hl : d[p]? = some l) : l.negate ∈ s.trail.literals := by
  rw [← h.false_iff]
  exact findWatch_none none (by omega) p hp l hl

structure Visits (f : Lit) (j : Nat) (s : State) (conflict : Option Nat) (s' : State)
    (keys : Array Nat) : Prop where
  grows : Extends s s'
  guarded : ∀ m ≤ j, s.Guarded m → s'.Guarded m
  visiting : ∃ i, Visiting f j s' keys i ∧ (conflict = none → keys.size ≤ i)
  false_clause : ∀ key, conflict = some key → ∃ c, s'.clauses[key]? = some c ∧ f ∈ c ∧
    ∀ l ∈ c, l.negate ∈ s'.trail.literals

namespace Visits

variable {f : Lit} {j : Nat} {t s' : State} {keys keys' : Array Nat} {conflict : Option Nat} {i : Nat}

theorem after (visits : Visits f j t conflict s' keys) (grows : Extends s t)
    (guarded : ∀ m ≤ j, s.Guarded m → t.Guarded m) : Visits f j s conflict s' keys :=
  { visits with
    grows := grows.trans visits.grows
    guarded := fun m hm g => visits.guarded m hm (guarded m hm g) }

theorem finished (v : Visiting f j s keys i) (last : keys.size ≤ i) : Visits f j s none s keys where
  grows := .refl s
  guarded _ _ g := g
  visiting := ⟨i, v, fun _ => last⟩
  false_clause _ h := nomatch h

theorem conflicted (v : Visiting f j s keys i) {key : Nat} {d : Array Lit} {other : Lit}
    (hc : s.clauses[key]? = some d) (first : d[0]? = some other) (second : d[1]? = some f)
    (falsified : other.negate ∈ s.trail.literals)
    (rest : ∀ p, 2 ≤ p → ∀ l, d[p]? = some l → l.negate ∈ s.trail.literals) :
    Visits f j s (some key) s keys where
  grows := .refl s
  guarded _ _ g := g
  visiting := ⟨i, v, fun h => nomatch h⟩
  false_clause k hk := by
    obtain rfl : key = k := Option.some.inj hk
    refine ⟨d, hc, Array.mem_of_getElem? second, fun l hl => ?_⟩
    rcases eq_or_eq_or_exists_of_mem first second hl with rfl | rfl | ⟨p, hle, hp⟩
    · exact falsified
    · exact Array.mem_of_getElem? v.falsified
    · exact rest p hle l hp

end Visits

theorem visit_spec {f : Lit} {j : Nat} {s s' : State} {keys keys' : Array Nat} {i fuel : Nat}
    {conflict : Option Nat} (v : Visiting f j s keys i) (bound : keys.size ≤ i + fuel)
    (visited : visit f fuel s keys i = (conflict, s', keys')) : Visits f j s conflict s' keys' := by
  induction fuel generalizing s keys i with
  | zero =>
    cases visited
    exact .finished v bound
  | succ fuel ih =>
    cases hk : keys[i]? with
    | none =>
      simp only [visit, hk] at visited
      cases visited
      exact .finished v (Array.getElem?_eq_none_iff.1 hk)
    | some key =>
      obtain ⟨c, other, hc, first, second, hc', turned⟩ := v.exists_turned hk
      have hi := (Array.getElem?_eq_some_iff.1 hk).1
      have hother : (turn f c).getD 0 default = other := by simp [first]
      simp only [visit, hk, getD_of_getElem? hc, hother] at visited
      suffices visits : Visits f j (s.setClause key (turn f c)) conflict s' keys' from
        visits.after (.reorder hc (turn_perm f c) s.watches) fun m _ g => g.turned v.coherent hc
      -- from here on, only the turned clause and its state count
      generalize s.setClause key (turn f c) = t at hc' turned visited ⊢
      generalize turn f c = d at first second hc' visited
      have h := turned.coherent
      split at visited
      · next htrue =>
        exact ih (turned.skip hk hc' (.inl ⟨first, second⟩) ((h.value_iff _).1 htrue)) (by omega) visited
      · next hnot =>
        split at visited
        · next place hfind =>
          obtain ⟨hplace, new, hnew, hopen⟩ := findWatch_some hfind
          rw [ne_eq, h.false_iff] at hopen
          have grows : Extends t (t.moveWatch key d place) := by
            rw [moveWatch_eq (h.clause_size key d hc') hnew]
            exact .reorder hc' (perm_swapIfInBounds d 1 place) _
          have := size_swapRemove hi
          exact (ih (turned.moved hk hc' second hplace hnew) (by omega) visited).after grows
            fun m _ g => turned.guarded_moved g hc' second hplace hnew hopen
        · next hfind =>
          have rest := h.rest_false hfind
          split at visited
          · next hfree =>
            have free := (value?_eq_none_iff t other).2 hfree
            have hasAtom := h.clause_hasAtom key d hc' other (Array.mem_of_getElem? first)
            have hj := (Array.getElem?_eq_some_iff.1 turned.falsified).1
            exact (ih (turned.forced hk hc' first second free rest) (by omega) visited).after
              (.assign h hasAtom free key) fun m hm g => g.assign h _ hasAtom free (by omega)
          · next b hb =>
            have falsified : other.negate ∈ t.trail.literals := by
              cases b with
              | true => exact absurd hb hnot
              | false => exact (h.false_iff other).1 hb
            cases visited
            exact .conflicted turned hc' first second falsified rest

theorem head_visit (f : Lit) (fuel : Nat) (s : State) (keys : Array Nat) (i : Nat) :
    (visit f fuel s keys i).2.1.trail.head = s.trail.head := by
  induction fuel generalizing s keys i with
  | zero => rfl
  | succ fuel ih =>
    simp only [visit]
    split
    · rfl
    · split
      · exact ih ..
      · split
        · exact ih ..
        · split
          · exact ih ..
          · rfl

structure Draws (l : Lit) (j : Nat) (s : State) (conflict : Option Nat) (s' : State) : Prop where
  coherent : s'.Coherent
  watched : Watched s'.watches s'.clauses
  grows : Extends s s'
  head_eq : s'.trail.head = s.trail.head
  guarded : ∀ m ≤ j, s.Guarded m → s'.Guarded m
  false_clause : ∀ key, conflict = some key → ∃ c, s'.clauses[key]? = some c ∧ l.negate ∈ c ∧
    ∀ m ∈ c, m.negate ∈ s'.trail.literals
  guarded_succ : conflict = none → (∀ x ∈ s.trail.starts, x ≤ j) → s.Guarded j → s'.Guarded (j + 1)

theorem propagateLit_spec {s s' : State} {l : Lit} {j : Nat} {conflict : Option Nat} (h : s.Coherent)
    (w : Watched s.watches s.clauses) (hl : s.trail.literals[j]? = some l)
    (drawn : s.propagateLit l = (conflict, s')) : Draws l j s conflict s' := by
  have start := Visiting.start h w hl
  unfold propagateLit at drawn
  rcases hv : visit l.negate (s.watches.getD l.negate.watchIndex #[]).size
    { s with watches := s.watches.setIfInBounds l.negate.watchIndex #[] }
    (s.watches.getD l.negate.watchIndex #[]) 0 with ⟨found, t, keys⟩
  simp only [hv] at drawn
  obtain ⟨rfl, rfl⟩ := Prod.mk.inj drawn
  have visits := visit_spec start (by omega) hv
  obtain ⟨i, v, last⟩ := visits.visiting
  have grows : Extends s t := { visits.grows with }
  exact
    { coherent := { v.coherent with size_watches := by simpa using v.coherent.size_watches }
      watched := v.watched
      grows := { grows with }
      head_eq := by
        have := head_visit l.negate (s.watches.getD l.negate.watchIndex #[]).size
          { s with watches := s.watches.setIfInBounds l.negate.watchIndex #[] }
          (s.watches.getD l.negate.watchIndex #[]) 0
        rwa [hv] at this
      guarded := visits.guarded
      false_clause := visits.false_clause
      guarded_succ := fun hnone starts g => by
        rw [← grows.starts] at starts
        exact v.guarded_succ (last hnone) starts (visits.guarded j (Nat.le_refl j) g) }

/-- What propagation comes to. The clause of a conflict is false, by a literal that was not propagated
before. -/
structure Propagates (s : State) (conflict : Option Nat) (s' : State) : Prop where
  coherent : s'.Coherent
  watched : Watched s'.watches s'.clauses
  grows : Extends s s'
  guarded : ∀ m ≤ s.trail.head, s.Guarded m → s'.Guarded m
  false_clause : ∀ key, conflict = some key → ∃ c, s'.clauses[key]? = some c ∧
    (∀ l ∈ c, l.negate ∈ s'.trail.literals) ∧
    ∃ l ∈ c, ∃ i, s.trail.head ≤ i ∧ s'.trail.literals[i]? = some l.negate
  complete : conflict = none → s'.trail.head = s'.trail.literals.size
  guarded_all : conflict = none → (∀ x ∈ s.trail.starts, x ≤ s.trail.head) →
    s.Guarded s.trail.head → s'.Guarded s'.trail.head

theorem propagateUpTo_spec {s s' : State} {fuel : Nat} {conflict : Option Nat} (h : s.Coherent)
    (w : Watched s.watches s.clauses) (bound : s.values.size < s.trail.head + fuel)
    (drawn : propagateUpTo fuel s = (conflict, s')) : Propagates s conflict s' := by
  induction fuel generalizing s with
  | zero =>
    have := h.head_le
    have := h.size_literals_le
    omega
  | succ fuel ih =>
    simp only [propagateUpTo, Trail.next?] at drawn
    cases hl : s.trail.literals[s.trail.head]? with
    | none =>
      rw [hl] at drawn
      obtain ⟨rfl, rfl⟩ := Prod.mk.inj drawn
      exact
        { coherent := h
          watched := w
          grows := .refl _
          guarded := fun _ _ g => g
          false_clause := fun _ hkey => nomatch hkey
          complete := fun _ => Nat.le_antisymm h.head_le (Array.getElem?_eq_none_iff.1 hl)
          guarded_all := fun _ _ g => g }
    | some l =>
      have hlt := (Array.getElem?_eq_some_iff.1 hl).1
      rw [hl] at drawn
      simp only [Option.map_some] at drawn
      set s₁ : State :=
        { s with
          trail := { s.trail with head := s.trail.head + 1 }
          counters := { s.counters with propagations := s.counters.propagations + 1 } } with hs₁
      have h₁ : s₁.Coherent := { h with head_le := hlt }
      have ext₁ : Extends s s₁ := { Extends.refl s with head_le := Nat.le_succ _ }
      rcases hp : s₁.propagateLit l with ⟨found, t⟩
      have draws := propagateLit_spec h₁ w hl hp
      have grows := ext₁.trans draws.grows
      rw [hp] at drawn
      cases found with
      | some key =>
        obtain ⟨rfl, rfl⟩ := Prod.mk.inj drawn
        refine
          { coherent := draws.coherent
            watched := draws.watched
            grows := grows
            guarded := draws.guarded
            false_clause := fun k hk => ?_
            complete := fun hn => nomatch hn
            guarded_all := fun hn => nomatch hn }
        obtain ⟨c, hc, hmem, hfalse⟩ := draws.false_clause k hk
        refine ⟨c, hc, hfalse, _, hmem, s.trail.head, Nat.le_refl _, ?_⟩
        rw [Lit.negate_negate]
        exact grows.literals _ l hl
      | none =>
        have head_eq : t.trail.head = s.trail.head + 1 := draws.head_eq
        have bound : t.values.size < t.trail.head + fuel := by
          have := grows.size_values
          omega
        have spec := ih draws.coherent draws.watched bound drawn
        refine
          { coherent := spec.coherent
            watched := spec.watched
            grows := grows.trans spec.grows
            guarded := fun m hm g => spec.guarded m (by omega) (draws.guarded m hm g)
            false_clause := fun k hk => ?_
            complete := spec.complete
            guarded_all := fun hn starts g => ?_ }
        · obtain ⟨c, hc, hfalse, m, hm, i, hi, hmi⟩ := spec.false_clause k hk
          exact ⟨c, hc, hfalse, m, hm, i, by omega, hmi⟩
        · apply spec.guarded_all hn
          · intro x hx
            rw [grows.starts] at hx
            have := starts x hx
            omega
          · rw [head_eq]
            exact draws.guarded_succ rfl starts g

theorem propagate_spec {s s' : State} {conflict : Option Nat} (h : s.Coherent)
    (w : Watched s.watches s.clauses) (drawn : s.propagate = (conflict, s')) :
    Propagates s conflict s' :=
  propagateUpTo_spec h w (by omega) drawn

end Defeasible.Search.State
