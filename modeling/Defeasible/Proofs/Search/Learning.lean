import Defeasible.Proofs.Search.Invariant

/-! A learnt clause is stored below the level of its conflict, where it forces its first literal. -/

namespace Defeasible.Search.State

variable {s s' : State} {p : Prop} {settings : Settings} {clauses more : List (List Lit)}

theorem getD_push {α : Type} (xs : Array α) (x d : α) (k : Nat) :
    (xs.push x).getD k d = if k = xs.size then x else xs.getD k d := by
  simp only [Array.getD_eq_getD_getElem?, Array.getElem?_push]
  split <;> rfl

section Store

variable {first second : Lit} {rest : List Lit}

theorem Watched.store (w : Watched s.watches s.clauses) (ne : first.watchIndex ≠ second.watchIndex)
    (lt : first.watchIndex < s.watches.size) (lt' : second.watchIndex < s.watches.size) :
    Watched (s.store first second rest).2.watches (s.store first second rest).2.clauses := by
  intro k key
  change (((s.watches.modify first.watchIndex (·.push s.clauses.size)).modify second.watchIndex
    (·.push s.clauses.size)).getD k #[]).count key =
      watchCount ((s.clauses.push (first :: second :: rest).toArray).getD key #[]) k
  have old := w k key
  rw [getD_modify (by simpa using lt'), getD_modify lt, getD_push]
  by_cases hkey : key = s.clauses.size
  · subst hkey
    have none : (s.watches.getD k #[]).count s.clauses.size = 0 := by simpa [watchCount] using old
    rw [if_pos rfl]
    by_cases h1 : k = first.watchIndex
    · subst h1
      rw [if_neg ne, if_pos rfl, Array.count_push_self, none]
      simp [watchCount, Ne.symm ne]
    · by_cases h2 : k = second.watchIndex
      · subst h2
        rw [if_pos rfl, if_neg h1, Array.count_push_self, none]
        simp [watchCount, ne]
      · rw [if_neg h2, if_neg h1, none]
        simp [watchCount, Ne.symm h1, Ne.symm h2]
  · rw [if_neg hkey, ← old]
    have push (keys : Array Nat) : (keys.push s.clauses.size).count key = keys.count key :=
      Array.count_push_of_ne (Ne.symm hkey)
    split <;> split <;> simp only [push]

@[simp] theorem trail_store : (s.store first second rest).2.trail = s.trail := by
  simp only [State.store, watch]

@[simp] theorem hasAtom_store (atom : Nat) :
    (s.store first second rest).2.HasAtom atom ↔ s.HasAtom atom := by
  unfold HasAtom
  exact Iff.rfl

@[simp] theorem value?_store (atom : Nat) :
    (s.store first second rest).2.value? atom = s.value? atom := by
  unfold value?
  rfl

theorem assign_store (l : Lit) (reason : Option Nat) : (s.store first second rest).2.assign l reason =
    { s.assign l reason with
      clauses := (s.store first second rest).2.clauses
      watches := (s.store first second rest).2.watches } := by
  simp only [State.store, watch, State.assign]

theorem getElem?_store (key : Nat) (c : Array Lit) :
    (s.store first second rest).2.clauses[key]? = some c ↔
      (key = s.clauses.size ∧ c = (first :: second :: rest).toArray) ∨ s.clauses[key]? = some c := by
  change (s.clauses.push (first :: second :: rest).toArray)[key]? = some c ↔ _
  rw [Array.getElem?_push]
  split
  · next h =>
    subst h
    simp [eq_comm]
  · next h => simp [h]

theorem retains_store (s : State) (first second : Lit) (rest : List Lit) :
    Retains s (s.store first second rest).2 :=
  { Retains.refl s with
    clauses := fun key c hc => ⟨c, (getElem?_store key c).2 (.inr hc), .rfl⟩ }

theorem Coherent.store (h : s.Coherent) (hasAtom : ∀ l ∈ first :: second :: rest, s.HasAtom l.atom)
    (nodup : ((first :: second :: rest).map Lit.atom).Nodup) :
    (s.store first second rest).2.Coherent := by
  apply h.withClauses
  · simpa [State.watch] using h.size_watches
  · intro key c hc
    rcases (getElem?_store key c).1 hc with ⟨-, rfl⟩ | hc
    · refine ⟨by simp, fun l hl => hasAtom l (by simpa using hl), by simpa using nodup⟩
    · exact ⟨h.clause_size key c hc, h.clause_hasAtom key c hc, h.clause_nodup key c hc⟩
  · intro key c hc
    exact ⟨c, (getElem?_store key c).2 (.inr hc), fun l => Iff.rfl⟩

theorem Structured.store (h : s.Structured p) (hasAtom : ∀ l ∈ first :: second :: rest, s.HasAtom l.atom)
    (nodup : ((first :: second :: rest).map Lit.atom).Nodup) :
    (s.store first second rest).2.Structured p := by
  have lt (l : Lit) (hl : l ∈ first :: second :: rest) : l.watchIndex < s.watches.size :=
    h.coherent.watchIndex_lt (hasAtom l hl)
  have ne : first.watchIndex ≠ second.watchIndex := fun heq => by
    rw [Lit.watchIndex_inj heq] at nodup
    simp at nodup
  exact { h with
    coherent := h.coherent.store hasAtom nodup
    watched := h.watched.store ne (lt _ (by simp)) (lt _ (by simp))
    queued := { h.queued with } }

theorem Invariant.store (inv : s.Invariant settings clauses) (sub : clauses ⊆ more)
    (hasAtom : ∀ l ∈ first :: second :: rest, s.HasAtom l.atom)
    (nodup : ((first :: second :: rest).map Lit.atom).Nodup)
    (entailed : Entails more (first :: second :: rest))
    (covers : ∀ c ∈ more, c ∈ clauses ∨ first :: second :: rest ⊆ c) :
    (s.store first second rest).2.Invariant settings more := by
  refine { inv.structured.store hasAtom nodup, inv with
    entailed := fun key c hc => ?_
    fixed := fun l hl hz hr => (inv.fixed l hl hz hr).weaken sub
    refuted := fun hr v hv => inv.refuted hr v (hv.of_subset sub)
    kept := inv.kept.imp_right fun kept c hc => ?_ }
  · rcases (getElem?_store key c).1 hc with ⟨-, rfl⟩ | hc
    · exact entailed
    · exact (inv.entailed key c hc).weaken sub
  · rcases covers c hc with hc | hsub
    · exact (kept c hc).mono (retains_store s first second rest)
    · exact .inr (.inr ⟨s.clauses.size, _, (getElem?_store _ _).2 (.inl ⟨rfl, rfl⟩), fun l hl =>
        hsub (List.mem_toArray.1 hl)⟩)

end Store

theorem Coherent.retains_assign (h : s.Coherent) {l : Lit} (reason : Option Nat)
    (hasAtom : s.HasAtom l.atom) (free : s.value? l.atom = none) : Retains s (s.assign l reason) where
  hasAtom atom ha := by simpa [State.assign, HasAtom] using ha
  fixed m hm hz := ⟨Array.mem_push_of_mem _ hm, by rw [h.level_assign_of_mem _ hasAtom free hm, hz]⟩
  clauses key c hc := ⟨c, hc, .rfl⟩

theorem Structured.assign (h : s.Structured p) {l : Lit} {reason : Option Nat} (hasAtom : s.HasAtom l.atom)
    (free : s.value? l.atom = none)
    (forced : ∀ key, reason = some key → ∃ c, s.clauses[key]? = some c ∧ l ∈ c ∧
      ∀ m ∈ c, m ≠ l → m.negate ∈ s.trail.literals)
    (decided : reason = none → 0 < s.trail.level →
      s.trail.starts[s.trail.level - 1]? = some s.trail.literals.size) :
    (s.assign l reason).Structured p where
  coherent := h.coherent.assign hasAtom free forced decided
  watched := h.watched
  queued := h.queued.requeue h.queued.linked rfl (by simp [State.assign]) fun _ ha => ha
  waiting hp a ha open' := by
    rw [value?_assign l reason hasAtom.2] at open'
    split at open'
    · cases open'
    · exact h.waiting hp a (by simpa [State.assign, HasAtom] using ha) open'

theorem Invariant.assign (inv : s.Invariant settings clauses) {l : Lit} {reason : Option Nat}
    (sub : clauses ⊆ more) (hasAtom : s.HasAtom l.atom) (free : s.value? l.atom = none)
    (forced : ∀ key, reason = some key → ∃ c, s.clauses[key]? = some c ∧ l ∈ c ∧
      ∀ m ∈ c, m ≠ l → m.negate ∈ s.trail.literals)
    (decided : reason = none → 0 < s.trail.level →
      s.trail.starts[s.trail.level - 1]? = some s.trail.literals.size)
    (entailed : reason = none → s.trail.level = 0 → Entails more [l])
    (covers : ∀ c ∈ more, c ∈ clauses ∨ s.trail.level = 0 ∧ l ∈ c) :
    (s.assign l reason).Invariant settings more := by
  have h := inv.coherent
  have hlev := h.lt_levels hasAtom
  have hrea := h.lt_reasons hasAtom
  have retains := h.retains_assign reason hasAtom free
  refine { inv.structured.assign hasAtom free forced decided, inv with
    entailed := fun key c hc => (inv.entailed key c hc).weaken sub
    fixed := fun m hm hz hr => ?_
    refuted := fun hr v hv => inv.refuted hr v (hv.of_subset sub)
    kept := inv.kept.imp_right fun kept c hc => ?_ }
  · rw [level_assign l reason hlev] at hz
    rw [reason?_assign l reason hrea] at hr
    rcases Array.mem_push.1 hm with hm | rfl
    · rw [if_neg (h.atom_ne_of_free free hm)] at hz hr
      exact (inv.fixed m hm hz hr).weaken sub
    · rw [if_pos rfl] at hz hr
      exact entailed hr hz
  · rcases covers c hc with hc | ⟨hz, hl⟩
    · exact (kept c hc).mono retains
    · exact .inl ⟨l, hl, Array.mem_push_self .., by rw [level_assign l reason hlev, if_pos rfl, hz]⟩

/-- What is true inside of a solve: the clauses are guarded up to place `m`, which no level starts after,
and the first levels belong to the assumptions. -/
structure Searching (assumptions : List Lit) (m : Nat) (s : State) : Prop where
  unrefuted : s.refuted = false
  le_head : m ≤ s.trail.head
  guarded : s.Guarded m
  starts_le : ∀ x ∈ s.trail.starts, x ≤ m
  assumed : ∀ (j : Nat) (a : Lit), assumptions[j]? = some a → j < s.trail.level →
    a ∈ s.trail.literals ∧ s.level a.atom ≤ j + 1
  decided : ∀ l ∈ s.trail.literals, s.reason? l.atom = none → 0 < s.level l.atom →
    s.level l.atom ≤ assumptions.length → assumptions[s.level l.atom - 1]? = some l

namespace Searching

variable {assumptions : List Lit} {m : Nat}

theorem grow (g : Searching assumptions m s) (e : Extends s s') (guarded : s'.Guarded m) :
    Searching assumptions m s' where
  unrefuted := e.refuted.trans g.unrefuted
  le_head := Nat.le_trans g.le_head e.head_le
  guarded := guarded
  starts_le := by rw [e.starts]; exact g.starts_le
  assumed j a ha hj := by
    rw [Trail.level, e.starts] at hj
    obtain ⟨mem, le⟩ := g.assumed j a ha hj
    exact ⟨e.mem mem, by rw [e.level a mem]; exact le⟩
  decided l hl hr hpos hle := by
    by_cases hold : l ∈ s.trail.literals
    · rw [e.level l hold] at hpos hle ⊢
      rw [e.reason l hold] at hr
      exact g.decided l hold hr hpos hle
    · have := e.forced l hl hold
      rw [hr] at this
      cases this

theorem remarked (g : Searching assumptions m s) (r : Remarked s s') : Searching assumptions m s' := by
  rw [r.eq]
  exact { g with }

theorem withClauses (g : Searching assumptions m s) {clauses : Array (Array Lit)}
    {watches : Array (Array Nat)} (guarded : { s with clauses, watches }.Guarded m) :
    Searching assumptions m { s with clauses, watches } :=
  { g with guarded }

theorem backjump (g : Searching assumptions m s) (h : s.Coherent) (target : Nat) :
    Searching assumptions (min m (s.remaining target)) (s.backjump target) where
  unrefuted := by rw [refuted_backjump, g.unrefuted]
  le_head := by
    have := g.le_head
    rw [head_backjump h]
    omega
  guarded := (g.guarded.mono (Nat.min_le_left _ _)).backjump h target
  starts_le x hx := by
    rw [starts_backjump] at hx
    obtain ⟨k, hk⟩ := Array.mem_iff_getElem?.1 hx
    rw [Array.getElem?_extract, Nat.zero_add] at hk
    have hlt : k < target := by grind
    have hk : s.trail.starts[k]? = some x := by grind
    have := g.starts_le x (Array.mem_of_getElem? hk)
    have := h.starts_le_remaining hk hlt
    omega
  assumed j a ha hj := by
    rw [Trail.level, starts_backjump, Array.size_extract] at hj
    obtain ⟨mem, le⟩ := g.assumed j a ha (by unfold Trail.level; omega)
    rw [level_backjump]
    exact ⟨h.mem_backjump_iff.2 ⟨mem, by omega⟩, le⟩
  decided l hl hr hpos hle := by
    rw [reason?_backjump, if_neg (h.not_cleared hl)] at hr
    rw [level_backjump] at hpos hle ⊢
    exact g.decided l (h.mem_backjump_iff.1 hl).1 hr hpos hle

theorem head_backjump_eq (g : Searching assumptions m s) (h : s.Coherent) {target : Nat}
    (le : target < s.trail.level ∨ m = s.trail.head) :
    (s.backjump target).trail.head = min m (s.remaining target) := by
  rw [head_backjump h]
  rcases le with lt | eq
  · have hx := Array.getElem?_eq_getElem lt
    have := g.starts_le _ (Array.mem_of_getElem? hx)
    have := g.le_head
    rw [remaining, hx, Option.getD_some]
    omega
  · rw [eq]

end Searching

namespace Shape

variable {learnt : Learnt}

theorem level_backjump (shape : s.Shape learnt) :
    (s.backjump learnt.backjumpLevel).trail.level = learnt.backjumpLevel := by
  have := shape.backjumpLevel_lt
  unfold Trail.level at this ⊢
  rw [starts_backjump, Array.size_extract]
  omega

theorem asserted_hasAtom (shape : s.Shape learnt) (h : s.Coherent) : s.HasAtom learnt.asserted.atom :=
  h.hasAtom learnt.asserted.negate shape.asserting.asserted_false

theorem free (shape : s.Shape learnt) (h : s.Coherent) :
    (s.backjump learnt.backjumpLevel).value? learnt.asserted.atom = none := by
  rw [value?_eq_none_iff, (h.backjump _).none_iff, h.mem_backjump_iff, h.mem_backjump_iff]
  have := shape.asserting.asserted_level
  have := shape.backjumpLevel_lt
  constructor
  · rintro ⟨-, hle⟩
    omega
  · rintro ⟨-, hle⟩
    rw [Lit.atom_negate] at hle
    omega

theorem others_false (shape : s.Shape learnt) (h : s.Coherent) :
    ∀ l ∈ learnt.others, l.negate ∈ (s.backjump learnt.backjumpLevel).trail.literals :=
  fun l hl => h.mem_backjump_iff.2 ⟨shape.asserting.others_false l hl, shape.level_le l hl⟩

theorem hasAtom (shape : s.Shape learnt) (h : s.Coherent) : ∀ l ∈ learnt.toList, s.HasAtom l.atom := by
  intro l hl
  rcases List.mem_cons.1 hl with rfl | hl
  · exact shape.asserted_hasAtom h
  · exact h.hasAtom l.negate (shape.asserting.others_false l (Array.mem_toList_iff.1 hl))

theorem nodup (shape : s.Shape learnt) : (learnt.toList.map Lit.atom).Nodup := by
  rw [Learnt.toList, List.map_cons, List.nodup_cons]
  refine ⟨fun hmem => ?_, shape.asserting.others_nodup⟩
  obtain ⟨l, hl, heq⟩ := List.mem_map.1 hmem
  have := (shape.asserting.others_level l (Array.mem_toList_iff.1 hl)).2
  rw [heq, shape.asserting.asserted_level] at this
  omega

theorem level_eq_zero (shape : s.Shape learnt) (hothers : learnt.others.toList = []) :
    (s.backjump learnt.backjumpLevel).trail.level = 0 := by
  rw [shape.level_backjump]
  exact shape.backjumpLevel_eq_zero (by simpa using hothers)

theorem forced (shape : s.Shape learnt) (h : s.Coherent) {second : Lit} {rest : List Lit}
    (hothers : learnt.others.toList = second :: rest) (key : Nat) (hkey : some s.clauses.size = some key) :
    let t := ((s.backjump learnt.backjumpLevel).store learnt.asserted second rest).2
    ∃ c, t.clauses[key]? = some c ∧ learnt.asserted ∈ c ∧
      ∀ l ∈ c, l ≠ learnt.asserted → l.negate ∈ t.trail.literals := by
  obtain rfl : s.clauses.size = key := Option.some.inj hkey
  refine ⟨_, (getElem?_store _ _).2 (.inl ⟨by rw [clauses_backjump], rfl⟩), by simp, fun l hl hne => ?_⟩
  rw [trail_store]
  apply shape.others_false h
  rw [← Array.mem_toList_iff, hothers]
  simpa [hne] using hl

end Shape

theorem Lesson.entailed {learnt : Learnt} (lesson : s.Lesson learnt)
    (inv : s.Invariant settings clauses) : Entails clauses learnt.toList :=
  fun v hv => lesson.derived v (inv.agrees hv)

theorem learn_nil {learnt : Learnt} (h : learnt.others.toList = []) :
    s.learn learnt = (s.backjump learnt.backjumpLevel).assign learnt.asserted none := by
  simp only [learn, h]

theorem learn_cons {learnt : Learnt} {second : Lit} {rest : List Lit}
    (h : learnt.others.toList = second :: rest) : s.learn learnt =
      ((s.backjump learnt.backjumpLevel).store learnt.asserted second rest).2.assign learnt.asserted
        (some s.clauses.size) := by
  simp only [learn, h, State.store, watch, clauses_backjump]

theorem Structured.learn (h : s.Structured p) {learnt : Learnt} (shape : s.Shape learnt) :
    (s.learn learnt).Structured p := by
  have back := h.backjump learnt.backjumpLevel
  have free := shape.free h.coherent
  have hasAtom := (hasAtom_backjump learnt.backjumpLevel _).2 (shape.asserted_hasAtom h.coherent)
  cases hothers : learnt.others.toList with
  | nil =>
    have level := shape.level_eq_zero hothers
    rw [learn_nil hothers]
    exact back.assign hasAtom free nofun fun _ hpos => by omega
  | cons second rest =>
    have hlist : learnt.toList = learnt.asserted :: second :: rest := by rw [Learnt.toList, hothers]
    have known := shape.hasAtom h.coherent
    have nodup := shape.nodup
    rw [hlist] at known nodup
    rw [learn_cons hothers]
    have stored := back.store (known_backjump known _) nodup
    exact stored.assign (by rwa [hasAtom_store]) (by rwa [value?_store])
      (shape.forced h.coherent hothers) nofun

theorem Invariant.learn (inv : s.Invariant settings clauses) {learnt : Learnt}
    (lesson : s.Lesson learnt) : (s.learn learnt).Invariant settings clauses := by
  have h := inv.coherent
  have back := inv.backjump learnt.backjumpLevel
  have shape := lesson.shape
  have free := shape.free h
  have entailed := lesson.entailed inv
  have hasAtom := (hasAtom_backjump learnt.backjumpLevel _).2 (shape.asserted_hasAtom h)
  cases hothers : learnt.others.toList with
  | nil =>
    have level := shape.level_eq_zero hothers
    rw [learn_nil hothers]
    rw [Learnt.toList, hothers] at entailed
    apply back.assign (List.Subset.refl _) hasAtom free
    · exact nofun
    · intro _ hpos
      omega
    · exact fun _ _ => entailed
    · exact fun c hc => .inl hc
  | cons second rest =>
    have hlist : learnt.toList = learnt.asserted :: second :: rest := by rw [Learnt.toList, hothers]
    have known := shape.hasAtom h
    have nodup := shape.nodup
    rw [learn_cons hothers]
    rw [hlist] at entailed known nodup
    have stored := back.store (List.Subset.refl _) (known_backjump known _) nodup
      entailed fun c hc => .inl hc
    exact stored.assign (List.Subset.refl _) (by rwa [hasAtom_store]) (by rwa [value?_store])
      (shape.forced h hothers) nofun nofun fun c hc => .inl hc

theorem Guarded.learn {first second : Lit} {m : Nat} (g : s.Guarded m) (h : s.Coherent)
    (rest : List Lit) (reason : Option Nat) (hasAtom : s.HasAtom first.atom)
    (free : s.value? first.atom = none) (hm : m ≤ s.trail.literals.size)
    (mem : second.negate ∈ s.trail.literals) (level : s.level second.atom = s.trail.level) :
    ((s.store first second rest).2.assign first reason).Guarded m := by
  rw [assign_store]
  intro key c a b hc hp i hi ha
  rcases (getElem?_store key c).1 hc with ⟨-, rfl⟩ | hc
  · have old : s.trail.literals[i]? = some a.negate := by
      change (s.trail.literals.push first)[i]? = some a.negate at ha
      rw [Array.getElem?_push_lt (by omega)] at ha
      rw [Array.getElem?_eq_getElem (by omega), ha]
    rcases hp with ⟨h0, h1⟩ | ⟨h1, h0⟩
    · obtain rfl : first = a := by simpa using h0
      exact absurd (Lit.atom_negate first) (h.atom_ne_of_free free (Array.mem_of_getElem? old))
    · obtain rfl : second = a := by simpa using h1
      obtain rfl : first = b := by simpa using h0
      refine ⟨Array.mem_push_self .., Nat.le_of_eq ?_⟩
      have h2 := h.level_assign_of_mem reason hasAtom free mem
      rw [Lit.atom_negate, level] at h2
      have h1 := level_assign (s := s) first reason (h.lt_levels hasAtom) first.atom
      rw [if_pos rfl] at h1
      exact h1.trans h2.symm
  · exact (g.assign h reason hasAtom free hm) key c a b hc hp i hi ha

namespace Searching

variable {assumptions : List Lit} {m : Nat}

theorem assign (g : Searching assumptions m s) (h : s.Coherent) {l : Lit} (reason : Option Nat)
    (hasAtom : s.HasAtom l.atom) (free : s.value? l.atom = none)
    (guarded : (s.assign l reason).Guarded m)
    (decided : reason = none → s.trail.level = 0) :
    Searching assumptions m (s.assign l reason) where
  unrefuted := g.unrefuted
  le_head := g.le_head
  guarded := guarded
  starts_le := g.starts_le
  assumed j a ha hj := by
    obtain ⟨mem, le⟩ := g.assumed j a ha hj
    exact ⟨Array.mem_push_of_mem _ mem, by rwa [h.level_assign_of_mem _ hasAtom free mem]⟩
  decided k hk hr hpos hle := by
    rcases Array.mem_push.1 hk with hk | rfl
    · rw [reason?_assign l reason (h.lt_reasons hasAtom),
        if_neg (h.atom_ne_of_free free hk)] at hr
      rw [h.level_assign_of_mem _ hasAtom free hk] at hpos hle ⊢
      exact g.decided k hk hr hpos hle
    · rw [reason?_assign k reason (h.lt_reasons hasAtom), if_pos rfl] at hr
      rw [level_assign k reason (h.lt_levels hasAtom), if_pos rfl, decided hr] at hpos
      omega

theorem store_assign (g : Searching assumptions m s) (h : s.Coherent) {first second : Lit}
    {rest : List Lit} (hasAtom : s.HasAtom first.atom) (free : s.value? first.atom = none)
    (mem : second.negate ∈ s.trail.literals) (level : s.level second.atom = s.trail.level) (key : Nat) :
    Searching assumptions m ((s.store first second rest).2.assign first (some key)) := by
  have hm := Nat.le_trans g.le_head h.head_le
  have guarded := g.guarded.learn h rest (some key) hasAtom free hm mem level
  have assigned := g.assign h (some key) hasAtom free (g.guarded.assign h _ hasAtom free hm) nofun
  rw [assign_store] at guarded ⊢
  exact assigned.withClauses guarded

theorem learn (g : Searching assumptions m s) (h : s.Coherent) {learnt : Learnt}
    (lesson : s.Lesson learnt) :
    Searching assumptions (s.learn learnt).trail.head (s.learn learnt) := by
  have back := g.backjump h learnt.backjumpLevel
  have hback := h.backjump learnt.backjumpLevel
  have hhead := g.head_backjump_eq h (.inl lesson.backjumpLevel_lt)
  rw [← hhead] at back
  have shape := lesson.shape
  have free := shape.free h
  have hasAtom := (hasAtom_backjump learnt.backjumpLevel _).2 (shape.asserted_hasAtom h)
  cases hothers : learnt.others.toList with
  | nil =>
    rw [learn_nil hothers]
    have guarded := back.guarded.assign hback none hasAtom free hback.head_le
    exact back.assign hback none hasAtom free guarded fun _ => shape.level_eq_zero hothers
  | cons second rest =>
    have hget : learnt.others[0]? = some second := by
      rw [← Array.getElem?_toList, hothers]
      rfl
    have hfalse := shape.others_false h second (Array.mem_of_getElem? hget)
    have hlevel := lesson.level_second second hget
    rw [learn_cons hothers]
    exact back.store_assign hback hasAtom free hfalse
      (by rw [level_backjump, shape.level_backjump, hlevel]) _

end Searching

end Defeasible.Search.State
