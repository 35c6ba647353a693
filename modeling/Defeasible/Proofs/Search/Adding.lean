import Defeasible.Proofs.Search.Solving

/-! New atoms and clauses. A clause that is added is kept in one way or the other, whatever level zero
makes of it. -/

namespace Defeasible.Search.State

variable {s s' : State} {p : Prop} {settings : Settings} {clauses : List (List Lit)}

theorem join_push_none {α : Type} (xs : Array (Option α)) (i : Nat) :
    (xs.push none)[i]?.join = xs[i]?.join := by
  rw [Array.getElem?_push]
  split
  · next h => simp [h]
  · rfl

theorem getD_push_default {α : Type} (xs : Array α) (d : α) (i : Nat) :
    (xs.push d).getD i d = xs.getD i d := by
  rw [getD_push]
  split
  · next h => simp [h]
  · rfl

theorem not_hasAtom_new (settings : Settings) (atom : Nat) : ¬ (State.new settings).HasAtom atom := by
  rintro ⟨pos, lt⟩
  change atom < 1 at lt
  omega

theorem new_structured (settings : Settings) : (State.new settings).Structured p := by
  have noAtom := not_hasAtom_new settings
  unfold State.new at noAtom ⊢
  rcases nextThreshold settings {} with ⟨restartThreshold, luby⟩
  dsimp only at noAtom ⊢
  have empty {α : Type} (i : Nat) (x : α) : (#[] : Array α)[i]? ≠ some x := by simp
  refine
    { coherent := ?_
      watched := fun w key => ?_
      queued := ⟨⟨rfl, fun p i => by simp [PriorityQueue.place?]⟩, fun a ha => absurd ha (noAtom a),
        Nat.zero_le _, fun a ha => ?_⟩
      waiting := fun _ a ha => absurd ha (noAtom a) }
  · refine
      { size_pos := Nat.one_pos
        size_phases := rfl
        size_levels := rfl
        size_reasons := rfl
        size_seen := rfl
        size_watches := rfl
        starts_sorted := fun i j x y _ hx => absurd hx (empty _ _)
        starts_le := fun i x hx => absurd hx (empty _ _)
        head_le := Nat.le_refl _
        hasAtom := fun l hl => absurd hl (Array.not_mem_empty l)
        value_iff := fun l => ?_
        atom_inj := fun i j l m hi => absurd hi (empty _ _)
        level_le := fun l hl => absurd hl (Array.not_mem_empty l)
        level_iff := fun i l hi => absurd hi (empty _ _)
        clause_size := fun key c hc => absurd hc (empty _ _)
        clause_hasAtom := fun key c hc => absurd hc (empty _ _)
        clause_nodup := fun key c hc => absurd hc (empty _ _)
        forced := fun i l key hi => absurd hi (empty _ _)
        decided := fun i l hi => absurd hi (empty _ _) }
    refine iff_of_false (fun h => ?_) (Array.not_mem_empty l)
    have none : (#[none] : Array (Option Bool))[l.atom]?.join = none := join_push_none #[] l.atom
    simp only [litValue?, value?, none] at h
    cases h
  · have none : (#[#[], #[]] : Array (Array Nat)).getD w #[] = #[] :=
      (getD_push_default #[#[]] #[] w).trans (getD_push_default #[] #[] w)
    change ((#[#[], #[]] : Array (Array Nat)).getD w #[]).count key = _
    rw [none]
    simp [watchCount]
  · simp [PriorityQueue.isWaiting, PriorityQueue.place?] at ha

theorem new_invariant (settings : Settings) : (State.new settings).Invariant settings [] :=
  { new_structured settings with
    settings_eq := rfl
    unmarked := fun a => getD_push_default #[] false a
    entailed := fun key c hc => absurd hc (by simp [State.new])
    fixed := fun l hl => absurd hl (Array.not_mem_empty l)
    refuted := nofun
    kept := .inr fun c hc => absurd hc List.not_mem_nil }

theorem new_settled (settings : Settings) : (State.new settings).Settled := by
  refine .inr ⟨fun key c a b hc => ?_, Nat.le_refl _⟩
  exact absurd hc (by simp [State.new])

section NewAtom

@[simp] theorem trail_newAtom : s.newAtom.2.trail = s.trail := by
  simp only [newAtom]

@[simp] theorem clauses_newAtom : s.newAtom.2.clauses = s.clauses := by
  simp only [newAtom]

@[simp] theorem value?_newAtom (atom : Nat) : s.newAtom.2.value? atom = s.value? atom :=
  join_push_none s.values atom

@[simp] theorem litValue?_newAtom (l : Lit) : s.newAtom.2.litValue? l = s.litValue? l := by
  simp only [litValue?, value?_newAtom]

@[simp] theorem reason?_newAtom (atom : Nat) : s.newAtom.2.reason? atom = s.reason? atom :=
  join_push_none s.reasons atom

@[simp] theorem level_newAtom (atom : Nat) : s.newAtom.2.level atom = s.level atom :=
  getD_push_default s.levels 0 atom

@[simp] theorem isSeen_newAtom (atom : Nat) : s.newAtom.2.isSeen atom = s.isSeen atom :=
  getD_push_default s.seen false atom

theorem getD_watches_newAtom (w : Nat) : s.newAtom.2.watches.getD w #[] = s.watches.getD w #[] :=
  (getD_push_default _ _ _).trans (getD_push_default _ _ _)

theorem size_values_newAtom : s.newAtom.2.values.size = s.values.size + 1 := by
  simp only [newAtom, Array.size_push]

theorem hasAtom_newAtom_of_hasAtom {atom : Nat} (h : s.HasAtom atom) : s.newAtom.2.HasAtom atom :=
  ⟨h.1, by rw [size_values_newAtom]; exact Nat.lt_succ_of_lt h.2⟩

theorem hasAtom_of_hasAtom_newAtom {atom : Nat} (h : s.newAtom.2.HasAtom atom) :
    s.HasAtom atom ∨ atom = s.values.size := by
  obtain ⟨pos, lt⟩ := h
  rw [size_values_newAtom] at lt
  rcases Nat.lt_succ_iff_lt_or_eq.1 lt with lt | eq
  · exact .inl ⟨pos, lt⟩
  · exact .inr eq

theorem Coherent.newAtom (h : s.Coherent) : s.newAtom.2.Coherent := by
  have push {α : Type} {xs : Array α} {x : α} (size : xs.size = s.values.size) :
      (xs.push x).size = (s.values.push none).size := by rw [Array.size_push, Array.size_push, size]
  refine
    { size_pos := by rw [size_values_newAtom]; omega
      size_phases := push h.size_phases
      size_levels := push h.size_levels
      size_reasons := push h.size_reasons
      size_seen := push h.size_seen
      size_watches := ?_
      starts_sorted := by simpa only [trail_newAtom] using h.starts_sorted
      starts_le := by simpa only [trail_newAtom] using h.starts_le
      head_le := by simpa only [trail_newAtom] using h.head_le
      hasAtom := fun l hl => by
        rw [trail_newAtom] at hl
        exact hasAtom_newAtom_of_hasAtom (h.hasAtom l hl)
      value_iff := by simpa only [trail_newAtom, litValue?_newAtom] using h.value_iff
      atom_inj := by simpa only [trail_newAtom] using h.atom_inj
      level_le := by simpa only [trail_newAtom, level_newAtom] using h.level_le
      level_iff := by simpa only [trail_newAtom, level_newAtom] using h.level_iff
      clause_size := by simpa only [clauses_newAtom] using h.clause_size
      clause_hasAtom := fun key c hc l hl =>
        hasAtom_newAtom_of_hasAtom (h.clause_hasAtom key c (by simpa only [clauses_newAtom] using hc) l hl)
      clause_nodup := by simpa only [clauses_newAtom] using h.clause_nodup
      forced := by simpa only [trail_newAtom, reason?_newAtom, clauses_newAtom] using h.forced
      decided := by simpa only [trail_newAtom, reason?_newAtom, level_newAtom] using h.decided }
  rw [size_values_newAtom]
  change ((s.watches.push #[]).push #[]).size = _
  rw [Array.size_push, Array.size_push, h.size_watches]
  omega

theorem retains_newAtom (s : State) : Retains s s.newAtom.2 where
  hasAtom _ h := hasAtom_newAtom_of_hasAtom h
  fixed l hl hz := ⟨by rwa [trail_newAtom], by rwa [level_newAtom]⟩
  clauses key c hc := ⟨c, by rwa [clauses_newAtom], .rfl⟩

theorem Queued.put_newAtom (q : s.Queued) :
    s.newAtom.2.activity.Linked ∧ s.newAtom.2.activity.values.size = s.values.size + 1 ∧
      ∀ j, s.newAtom.2.activity.isWaiting j = true ↔ j = s.values.size ∨ s.activity.isWaiting j = true := by
  obtain ⟨linked, size, waiting⟩ := q.linked.put_new 0 q.size_le
  have gains := linked.enqueue (show s.values.size < _ by rw [size]; exact Nat.lt_succ_self _)
  refine ⟨gains.linked, gains.size_values.trans size, fun j => ?_⟩
  rw [← waiting]
  exact gains.isWaiting_iff j

theorem Structured.newAtom (h : s.Structured p) : s.newAtom.2.Structured p := by
  obtain ⟨linked, size, waiting⟩ := h.queued.put_newAtom
  refine
    { coherent := h.coherent.newAtom
      watched := fun w key => ?_
      queued := ⟨linked, fun a ha => ?_, ?_, fun a ha => ?_⟩
      waiting := fun hp a ha free => ?_ }
  · rw [getD_watches_newAtom, clauses_newAtom]
    exact h.watched w key
  · rw [size, ← size_values_newAtom]
    exact ha.2
  · rw [size, size_values_newAtom]
  · rcases (waiting a).1 ha with rfl | ha
    · exact ⟨h.coherent.size_pos, by rw [size_values_newAtom]; exact Nat.lt_succ_self _⟩
    · exact hasAtom_newAtom_of_hasAtom (h.queued.hasAtom a ha)
  · rw [value?_newAtom] at free
    exact (waiting a).2 ((hasAtom_of_hasAtom_newAtom ha).symm.imp_right fun ha => h.waiting hp a ha free)

theorem Invariant.newAtom (inv : s.Invariant settings clauses) :
    s.newAtom.2.Invariant settings clauses :=
  { inv.structured.newAtom with
    settings_eq := inv.settings_eq
    unmarked := fun a => by rw [isSeen_newAtom, inv.unmarked]
    entailed := by simpa only [clauses_newAtom] using inv.entailed
    fixed := by simpa only [trail_newAtom, level_newAtom, reason?_newAtom] using inv.fixed
    refuted := inv.refuted
    kept := inv.kept.imp_right fun kept c hc => (kept c hc).mono (retains_newAtom s) }

theorem Settled.newAtom (settled : s.Settled) : s.newAtom.2.Settled := by
  refine settled.imp_right fun ⟨guarded, le⟩ => ?_
  have remaining : s.newAtom.2.remaining 0 = s.remaining 0 := by
    unfold remaining
    rw [trail_newAtom]
  rw [remaining, trail_newAtom]
  refine ⟨fun key c a b hc hp i hi ha => ?_, le⟩
  rw [clauses_newAtom] at hc
  rw [trail_newAtom] at ha ⊢
  rw [level_newAtom, level_newAtom]
  exact guarded key c a b hc hp i hi ha

end NewAtom

section AddClause

structure Simplified (s : State) (kept ls out : List Lit) : Prop where
  free : ∀ l ∈ out, s.value? l.atom = none
  nodup : (out.map Lit.atom).Nodup
  sub : ∀ l ∈ out, l ∈ kept ∨ l ∈ ls
  covers : ∀ l, l ∈ kept ∨ l ∈ ls → l ∈ out ∨ s.litValue? l = some false

inductive Simplifies (s : State) (kept ls : List Lit) : Option (List Lit) → Prop
  | holds (l : Lit) (mem : l ∈ ls) (holds : s.litValue? l = some true) : Simplifies s kept ls none
  | opposite (l : Lit) (mem : l ∈ ls) (opposite : l.negate ∈ kept ∨ l.negate ∈ ls) :
    Simplifies s kept ls none
  | left (out : List Lit) (simplified : Simplified s kept ls out) : Simplifies s kept ls (some out)

namespace Simplifies

variable {kept ls : List Lit} {l : Lit} {out? : Option (List Lit)}

theorem skip (covered : l ∈ kept ∨ s.litValue? l = some false) (rest : Simplifies s kept ls out?) :
    Simplifies s kept (l :: ls) out? := by
  cases rest with
  | holds m mem holds => exact .holds m (List.mem_cons_of_mem l mem) holds
  | opposite m mem opposite =>
    exact .opposite m (List.mem_cons_of_mem l mem) (opposite.imp_right (List.mem_cons_of_mem l))
  | left out simplified =>
    refine .left out ⟨simplified.free, simplified.nodup,
      fun m hm => (simplified.sub m hm).imp_right (List.mem_cons_of_mem l), fun m hm => ?_⟩
    rcases hm with hm | hm
    · exact simplified.covers m (.inl hm)
    · rcases List.mem_cons.1 hm with rfl | hm
      · exact covered.elim (fun h => simplified.covers m (.inl h)) .inr
      · exact simplified.covers m (.inr hm)

theorem keep (rest : Simplifies s (kept ++ [l]) ls out?) : Simplifies s kept (l :: ls) out? := by
  cases rest with
  | holds m mem holds => exact .holds m (List.mem_cons_of_mem l mem) holds
  | opposite m mem opposite =>
    refine .opposite m (List.mem_cons_of_mem l mem) ?_
    rw [List.mem_append, List.mem_singleton] at opposite
    rw [List.mem_cons]
    tauto
  | left out simplified =>
    refine .left out ⟨simplified.free, simplified.nodup, fun m hm => ?_, fun m hm => ?_⟩
    · have := simplified.sub m hm
      rw [List.mem_append, List.mem_singleton] at this
      rw [List.mem_cons]
      tauto
    · apply simplified.covers
      rw [List.mem_append, List.mem_singleton]
      rw [List.mem_cons] at hm
      tauto

end Simplifies

theorem nodup_keep {kept : List Lit} {l : Lit} (nodup : (kept.map Lit.atom).Nodup) (new : l ∉ kept)
    (opposite : l.negate ∉ kept) : ((kept ++ [l]).map Lit.atom).Nodup := by
  rw [List.map_append, List.map_singleton, List.nodup_append]
  refine ⟨nodup, List.nodup_singleton _, fun a ha b hb heq => ?_⟩
  obtain ⟨m, hm, rfl⟩ := List.mem_map.1 ha
  obtain rfl := List.mem_singleton.1 hb
  rcases Lit.eq_or_eq_negate heq with rfl | rfl
  · exact new hm
  · exact opposite hm

theorem simplify_spec {kept ls : List Lit} (known : ∀ l ∈ ls, s.HasAtom l.atom)
    (free : ∀ l ∈ kept, s.value? l.atom = none) (nodup : (kept.map Lit.atom).Nodup) :
    ∃ out?, s.simplify kept ls = .ok out? ∧ Simplifies s kept ls out? := by
  induction ls generalizing kept with
  | nil =>
    have covers : ∀ l, l ∈ kept ∨ l ∈ [] → l ∈ kept ∨ s.litValue? l = some false :=
      fun l hl => .inl (hl.resolve_right List.not_mem_nil)
    exact ⟨some kept, rfl, .left kept ⟨free, nodup, fun l hl => .inl hl, covers⟩⟩
  | cons l ls ih =>
    have hl := known l (List.mem_cons_self ..)
    have known' : ∀ m ∈ ls, s.HasAtom m.atom := fun m hm => known m (List.mem_cons_of_mem _ hm)
    have knows : s.knows l = true := by simpa [State.knows] using hl.2
    rw [simplify]
    simp only [knows, Bool.not_true, Bool.false_eq_true, if_false]
    cases hv : s.litValue? l with
    | some b =>
      cases b with
      | true => exact ⟨none, rfl, .holds l (List.mem_cons_self ..) hv⟩
      | false =>
        obtain ⟨out?, run, simplifies⟩ := ih known' free nodup
        exact ⟨out?, run, simplifies.skip (.inr hv)⟩
    | none =>
      dsimp only
      by_cases opposite : l.negate ∈ kept
      · rw [if_pos opposite]
        exact ⟨none, rfl, .opposite l (List.mem_cons_self ..) (.inl opposite)⟩
      · rw [if_neg opposite]
        by_cases mem : l ∈ kept
        · rw [if_pos mem]
          obtain ⟨out?, run, simplifies⟩ := ih known' free nodup
          exact ⟨out?, run, simplifies.skip (.inl mem)⟩
        · rw [if_neg mem]
          have free' : ∀ m ∈ kept ++ [l], s.value? m.atom = none := fun m hm => by
            rcases List.mem_append.1 hm with hm | hm
            · exact free m hm
            · obtain rfl := List.mem_singleton.1 hm
              exact (value?_eq_none_iff s m).2 hv
          obtain ⟨out?, run, simplifies⟩ := ih known' free' (nodup_keep nodup mem opposite)
          exact ⟨out?, run, simplifies.keep⟩

theorem Coherent.remaining_backjump (h : s.Coherent) (target : Nat) :
    (s.backjump target).remaining 0 = s.remaining 0 := by
  have hle := h.remaining_le target
  rw [remaining, starts_backjump, literals_backjump, Array.getElem?_extract, Array.size_extract]
  simp only [Nat.zero_add]
  by_cases hzero : target = 0
  · subst hzero
    rw [if_neg (by omega), Option.getD_none]
    omega
  · by_cases hstart : 0 < s.trail.starts.size
    · simp only [remaining]
      rw [if_pos (by omega), Array.getElem?_eq_getElem hstart]
      rfl
    · have none (i : Nat) : s.trail.starts[i]? = none := Array.getElem?_eq_none (by omega)
      rw [if_neg (by omega), remaining, remaining, none, none]
      simp

theorem Settled.backjump (settled : s.Settled) (h : s.Coherent) (target : Nat) :
    (s.backjump target).Settled := by
  rcases settled with refuted | ⟨guarded, le⟩
  · exact .inl (by rwa [refuted_backjump])
  · refine .inr ⟨?_, ?_⟩
    · rw [h.remaining_backjump]
      exact guarded.backjump h target
    · have := (h.backjump target).remaining_le 0
      rw [h.remaining_backjump] at this ⊢
      rw [literals_backjump, Array.size_extract] at this
      rw [head_backjump h]
      omega

theorem assign_propagate_spec {l : Lit} {conflict : Option Nat} {more : List (List Lit)}
    (inv : s.Invariant settings clauses) (settled : s.Settled) (zero : s.trail.starts = #[])
    (sub : clauses ⊆ more) (hasAtom : s.HasAtom l.atom) (free : s.value? l.atom = none)
    (entailed : Entails more [l]) (covers : ∀ c ∈ more, c ∈ clauses ∨ l ∈ c)
    (drawn : (s.assign l none).propagate = (conflict, s')) :
    s'.Invariant settings more ∧ (conflict = none → s'.Settled) ∧
      ∀ key, conflict = some key → ∀ v, ¬ Models v more := by
  have h := inv.coherent
  have level : s.trail.level = 0 := by rw [Trail.level, zero]; rfl
  have assigned : (s.assign l none).Invariant settings more :=
    inv.assign sub hasAtom free (fun _ hk => by cases hk) (by omega) (fun _ _ => entailed)
      fun c hc => (covers c hc).imp_right fun hl => ⟨level, hl⟩
  have p := propagate_spec assigned.coherent assigned.watched drawn
  have inv' := assigned.propagates p
  have starts : s'.trail.starts = #[] := p.grows.starts.trans zero
  refine ⟨inv', fun hn => ?_, fun key hk => ?_⟩
  · rcases settled with refuted | ⟨guarded, le⟩
    · exact .inl (p.grows.refuted.trans refuted)
    · have hremaining : s.remaining 0 = s.trail.literals.size := by rw [remaining, zero]; rfl
      have hhead := h.head_le
      have guarded' : (s.assign l none).Guarded (s.assign l none).trail.head :=
        (guarded.mono (show s.trail.head ≤ _ by omega)).assign h _ hasAtom free hhead
      have complete := p.complete hn
      have none : s'.remaining 0 = s'.trail.literals.size := by rw [remaining, starts]; rfl
      have := p.guarded_all hn (fun x hx => by
        have hx : x ∈ s.trail.starts := hx
        rw [zero] at hx
        exact absurd hx (Array.not_mem_empty x)) guarded'
      rw [complete] at this
      exact .inr ⟨by rwa [none], by rw [none, complete]⟩
  · obtain ⟨c, hc, falsified, -⟩ := p.false_clause key hk
    exact inv'.refute (by rw [Trail.level, starts]; rfl) hc falsified

theorem Settled.store {first second : Lit} {rest : List Lit} (settled : s.Settled) (h : s.Coherent)
    (free : ∀ l ∈ first :: second :: rest, s.value? l.atom = none) :
    (s.store first second rest).2.Settled := by
  refine settled.imp_right fun ⟨guarded, le⟩ => ⟨fun key c a b hc hp i hi ha => ?_, le⟩
  rcases (getElem?_store key c).1 hc with ⟨-, rfl⟩ | hc
  · have ha : a.negate ∈ s.trail.literals := Array.mem_of_getElem? ha
    have hmem : a ∈ first :: second :: rest := by
      rcases hp with ⟨h0, -⟩ | ⟨h1, -⟩
      · exact List.mem_toArray.1 (Array.mem_of_getElem? h0)
      · exact List.mem_toArray.1 (Array.mem_of_getElem? h1)
    exact absurd (Lit.atom_negate a) (h.atom_ne_of_free (free a hmem) ha)
  · exact guarded key c a b hc hp i hi ha

theorem addClause_spec {clause : List Lit} (inv : s.Invariant settings clauses) (settled : s.Settled)
    (known : ∀ l ∈ clause, s.HasAtom l.atom) :
    ∃ s', s.addClause clause = .ok s' ∧ s'.Invariant settings (clauses ++ [clause]) ∧ s'.Settled := by
  have back := inv.backjump 0
  have settled := settled.backjump inv.coherent 0
  have starts := starts_backjump_zero s
  have known := known_backjump known 0
  unfold addClause
  generalize s.backjump 0 = t at back settled starts known
  have h := back.coherent
  have level : t.trail.level = 0 := by rw [Trail.level, starts]; rfl
  have zero : ∀ l ∈ t.trail.literals, t.level l.atom = 0 := fun l hl => by
    have := h.level_le l hl
    omega
  have sub : clauses ⊆ clauses ++ [clause] := List.subset_append_left _ _
  have kept (new : t.Kept clause) : t.refuted = true ∨ ∀ c ∈ clauses ++ [clause], t.Kept c :=
    back.kept.imp_right fun kept c hc => by
      rcases List.mem_append.1 hc with hc | hc
      · exact kept c hc
      · obtain rfl := List.mem_singleton.1 hc
        exact new
  dsimp only
  by_cases refuted : t.refuted = true
  · rw [if_pos refuted]
    exact ⟨t, rfl, back.weaken sub (.inl refuted), settled⟩
  · rw [if_neg refuted]
    obtain ⟨out?, run, simplifies⟩ :=
      simplify_spec known (fun l hl => absurd hl List.not_mem_nil) List.nodup_nil
    simp only [run]
    cases simplifies with
    | holds l mem holds =>
      have on := (h.value_iff l).1 holds
      exact ⟨t, rfl, back.weaken sub (kept (.inl ⟨l, mem, on, zero l on⟩)), settled⟩
    | opposite l mem opposite =>
      have opposite := opposite.resolve_left List.not_mem_nil
      exact ⟨t, rfl, back.weaken sub (kept (.inr (.inl ⟨l, mem, opposite, known l mem⟩))), settled⟩
    | left out simplified =>
      have mem : ∀ l ∈ out, l ∈ clause := fun l hl => (simplified.sub l hl).resolve_left List.not_mem_nil
      -- what is left out of the clause is false at level zero, so what is left follows
      have entailed : Entails (clauses ++ [clause]) out := by
        refine (Entails.of_mem (c := clause) (by simp)).drop_false fun l hl => ?_
        refine (simplified.covers l (.inr hl)).imp_right fun hf => ?_
        have hneg := (h.false_iff l).1 hf
        exact entails_singleton.2 fun v hv => (back.agrees (hv.of_subset sub)).fixed _ hneg (zero _ hneg)
      have covers (c : List Lit) (hc : c ∈ clauses ++ [clause]) : c ∈ clauses ∨ out ⊆ c :=
        (List.mem_append.1 hc).imp_right fun hc => by
          obtain rfl := List.mem_singleton.1 hc
          exact mem
      cases out with
      | nil =>
        have refutes : ∀ v, ¬ Models v (clauses ++ [clause]) := fun v hv => by
          obtain ⟨l, hl, -⟩ := entailed v hv
          exact absurd hl List.not_mem_nil
        exact ⟨_, rfl, back.refuted_intro sub refutes, .inl rfl⟩
      | cons first rest =>
        cases rest with
        | nil =>
          have free := simplified.free first (by simp)
          have hasAtom := known first (mem first (by simp))
          rcases drawn : (t.assign first none).propagate with ⟨conflict, u⟩
          obtain ⟨inv', settled', refutes⟩ := assign_propagate_spec back settled starts sub hasAtom free
            entailed (fun c hc => (covers c hc).imp_right fun hsub => hsub (by simp)) drawn
          cases conflict with
          | none =>
            simp only [drawn]
            exact ⟨u, rfl, inv', settled' rfl⟩
          | some key =>
            simp only [drawn]
            exact ⟨_, rfl, inv'.refuted_intro (List.Subset.refl _) (refutes key rfl), .inl rfl⟩
        | cons second rest =>
          exact ⟨_, rfl, back.store sub (fun l hl => known l (mem l hl)) simplified.nodup entailed covers,
            settled.store h simplified.free⟩

end AddClause

end Defeasible.Search.State
