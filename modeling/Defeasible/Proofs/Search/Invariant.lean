import Defeasible.Proofs.Pcg
import Defeasible.Proofs.Search.Analysis
import Defeasible.Proofs.Search.Propagation
import Defeasible.Proofs.Search.Structured

/-! What is true of a state before and after every operation: what is stored follows from the clauses
that were added, and covers each of them. -/

namespace Defeasible.Search.State

variable {s s' : State} {settings : Settings} {clauses : List (List Lit)}

structure Retains (s s' : State) : Prop where
  hasAtom : ∀ atom, s.HasAtom atom → s'.HasAtom atom
  fixed : ∀ l ∈ s.trail.literals, s.level l.atom = 0 → l ∈ s'.trail.literals ∧ s'.level l.atom = 0
  clauses : ∀ (key : Nat) (c : Array Lit), s.clauses[key]? = some c →
    ∃ d, s'.clauses[key]? = some d ∧ d.Perm c

namespace Retains

theorem refl (s : State) : Retains s s := ⟨fun _ h => h, fun _ h z => ⟨h, z⟩, fun _ c h => ⟨c, h, .rfl⟩⟩

theorem trans {s'' : State} (r : Retains s s') (r' : Retains s' s'') : Retains s s'' where
  hasAtom atom h := r'.hasAtom atom (r.hasAtom atom h)
  fixed l hl hz := by
    obtain ⟨hl, hz⟩ := r.fixed l hl hz
    exact r'.fixed l hl hz
  clauses key c hc := by
    obtain ⟨d, hd, hp⟩ := r.clauses key c hc
    obtain ⟨e, he, hp'⟩ := r'.clauses key d hd
    exact ⟨e, he, hp'.trans hp⟩

end Retains

theorem Extends.retains (e : Extends s s') : Retains s s' where
  hasAtom atom h := ⟨h.1, by rw [e.size_values]; exact h.2⟩
  fixed l hl hz := ⟨e.mem hl, by rw [e.level l hl, hz]⟩
  clauses := e.clauses

theorem Remarked.retains (r : Remarked s s') : Retains s s' := by
  rw [r.eq]
  exact { Retains.refl s with }

theorem Coherent.mem_backjump_iff (h : s.Coherent) {target : Nat} {l : Lit} :
    l ∈ (s.backjump target).trail.literals ↔ l ∈ s.trail.literals ∧ s.level l.atom ≤ target := by
  refine ⟨fun hl => ⟨(h.mem_backjump.1 hl).2, h.level_le_of_backjump hl⟩, fun ⟨hl, hle⟩ => ?_⟩
  obtain ⟨i, hi⟩ := Array.mem_iff_getElem?.1 hl
  refine Array.mem_of_getElem? (h.getElem?_backjump.2 ⟨?_, hi⟩)
  unfold remaining
  cases hx : s.trail.starts[target]? with
  | none => exact (Array.getElem?_eq_some_iff.1 hi).1
  | some x =>
    have := h.level_iff i l hi target x hx
    change i < x
    omega

theorem Coherent.retains_backjump (h : s.Coherent) (target : Nat) : Retains s (s.backjump target) where
  hasAtom atom ha := by rwa [hasAtom_backjump]
  fixed l hl hz := ⟨h.mem_backjump_iff.2 ⟨hl, by omega⟩, by rwa [level_backjump]⟩
  clauses key c hc := ⟨c, by rwa [clauses_backjump], .rfl⟩

/-- How a clause that was added is kept: a literal of it is true for good, or it holds in any case, or a
part of it is stored. -/
def Kept (s : State) (clause : List Lit) : Prop :=
  (∃ l ∈ clause, l ∈ s.trail.literals ∧ s.level l.atom = 0) ∨
    (∃ l ∈ clause, l.negate ∈ clause ∧ s.HasAtom l.atom) ∨
    ∃ (key : Nat) (c : Array Lit), s.clauses[key]? = some c ∧ ∀ l ∈ c, l ∈ clause

theorem Kept.mono {clause : List Lit} (k : s.Kept clause) (r : Retains s s') : s'.Kept clause := by
  rcases k with ⟨l, mem, on, zero⟩ | ⟨l, pos, neg, hasAtom⟩ | ⟨key, c, hc, sub⟩
  · exact .inl ⟨l, mem, r.fixed l on zero⟩
  · exact .inr (.inl ⟨l, pos, neg, r.hasAtom _ hasAtom⟩)
  · obtain ⟨d, hd, perm⟩ := r.clauses key c hc
    exact .inr (.inr ⟨key, d, hd, fun l hl => sub l (perm.mem_iff.1 hl)⟩)

structure Invariant (settings : Settings) (clauses : List (List Lit)) (s : State) : Prop where
  settings_eq : s.settings = settings
  coherent : s.Coherent
  watched : Watched s.watches s.clauses
  queued : s.Queued
  waiting : settings.Probable → s.Waiting
  unmarked : ∀ atom, s.isSeen atom = false
  entailed : ∀ (key : Nat) (c : Array Lit), s.clauses[key]? = some c → Entails clauses c.toList
  fixed : ∀ l ∈ s.trail.literals, s.level l.atom = 0 → s.reason? l.atom = none → Entails clauses [l]
  refuted : s.refuted = true → ∀ v, ¬ Models v clauses
  kept : s.refuted = true ∨ ∀ c ∈ clauses, s.Kept c

namespace Invariant

theorem agrees (inv : s.Invariant settings clauses) {v : Valuation} (hv : Models v clauses) :
    s.Agrees v := by
  have stored : ∀ (key : Nat) (c : Array Lit), s.clauses[key]? = some c → Satisfies v c.toList :=
    fun key c hc => inv.entailed key c hc v hv
  refine ⟨stored, fun l hl hz => ?_⟩
  apply inv.coherent.holds_of_decided (n := 0) stored _ l hl (Nat.le_of_eq hz)
  intro m hm hle hr
  exact entails_singleton.1 (inv.fixed m hm (Nat.le_zero.1 hle) hr) v hv

theorem structured (inv : s.Invariant settings clauses) : s.Structured settings.Probable :=
  { inv with }

theorem grow (inv : s.Invariant settings clauses) (h : s'.Coherent)
    (w : Watched s'.watches s'.clauses) (e : Extends s s') : s'.Invariant settings clauses :=
  { inv.structured.grow h w e with
    settings_eq := e.settings.trans inv.settings_eq
    unmarked := fun a => by
      unfold isSeen
      rw [e.seen]
      exact inv.unmarked a
    entailed := fun key d hd => by
      have hlt := (Array.getElem?_eq_some_iff.1 hd).1
      rw [e.size_clauses] at hlt
      obtain ⟨d', hd', perm⟩ := e.clauses key _ (Array.getElem?_eq_getElem hlt)
      obtain rfl : d = d' := Option.some.inj (hd.symm.trans hd')
      refine (inv.entailed key _ (Array.getElem?_eq_getElem hlt)).of_subset fun l hl => ?_
      exact Array.mem_toList_iff.2 (perm.mem_iff.2 (Array.mem_toList_iff.1 hl))
    fixed := fun l hl hz hr => by
      by_cases hold : l ∈ s.trail.literals
      · rw [e.level l hold] at hz
        rw [e.reason l hold] at hr
        exact inv.fixed l hold hz hr
      · have := e.forced l hl hold
        rw [hr] at this
        cases this
    refuted := fun hr => inv.refuted (by rw [← e.refuted]; exact hr)
    kept := by
      rw [e.refuted]
      exact inv.kept.imp_right fun kept c hc => (kept c hc).mono e.retains }

theorem propagates (inv : s.Invariant settings clauses) {conflict : Option Nat}
    (p : Propagates s conflict s') : s'.Invariant settings clauses :=
  inv.grow p.coherent p.watched p.grows

theorem remarked (inv : s.Invariant settings clauses) (r : Remarked s s')
    (unmarked : ∀ atom, s'.isSeen atom = false) : s'.Invariant settings clauses := by
  have structured := inv.structured.remarked r
  rw [r.eq] at structured unmarked ⊢
  exact { structured, inv with unmarked }

theorem backjump (inv : s.Invariant settings clauses) (target : Nat) :
    (s.backjump target).Invariant settings clauses :=
  { inv.structured.backjump target with
    settings_eq := by rw [settings_backjump, inv.settings_eq]
    unmarked := fun a => by
      unfold isSeen
      rw [seen_backjump]
      exact inv.unmarked a
    entailed := by simpa using inv.entailed
    fixed := fun l hl hz hr => by
      rw [reason?_backjump, if_neg (inv.coherent.not_cleared hl)] at hr
      rw [level_backjump] at hz
      exact inv.fixed l (inv.coherent.mem_backjump.1 hl).2 hz hr
    refuted := fun hr => inv.refuted (by simpa using hr)
    kept := by
      rw [refuted_backjump]
      exact inv.kept.imp_right fun kept c hc => (kept c hc).mono (inv.coherent.retains_backjump target) }

section Weaken

variable {more : List (List Lit)}

theorem weaken (inv : s.Invariant settings clauses) (sub : clauses ⊆ more)
    (kept : s.refuted = true ∨ ∀ c ∈ more, s.Kept c) : s.Invariant settings more :=
  { inv with
    entailed := fun key c hc => (inv.entailed key c hc).weaken sub
    fixed := fun l hl hz hr => (inv.fixed l hl hz hr).weaken sub
    refuted := fun hr v hv => inv.refuted hr v (hv.of_subset sub)
    kept := kept }

theorem refuted_intro (inv : s.Invariant settings clauses) (sub : clauses ⊆ more)
    (refutes : ∀ v, ¬ Models v more) : { s with refuted := true }.Invariant settings more :=
  { inv.structured.refute, inv with
    entailed := fun key c hc => (inv.entailed key c hc).weaken sub
    fixed := fun l hl hz hr => (inv.fixed l hl hz hr).weaken sub
    refuted := fun _ => refutes
    kept := .inl rfl }

end Weaken

end Invariant

theorem Guarded.backjump {m : Nat} (g : s.Guarded m) (h : s.Coherent) (target : Nat) :
    (s.backjump target).Guarded m := by
  intro key c a b hc hp i hi ha
  rw [clauses_backjump] at hc
  have hmem := Array.mem_of_getElem? ha
  have hle := h.level_le_of_backjump hmem
  rw [Lit.atom_negate] at hle
  obtain ⟨hb, hlevel⟩ := g key c a b hc hp i hi (h.getElem?_backjump.1 ha).2
  rw [level_backjump, level_backjump]
  exact ⟨h.mem_backjump_iff.2 ⟨hb, by omega⟩, hlevel⟩

end Defeasible.Search.State
