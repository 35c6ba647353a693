import Defeasible.Proofs.Search.Backjump
import Defeasible.Proofs.Search.Marking

/-! How the parts of a state fit together, whatever its clauses mean. -/

namespace Defeasible.Search.State

variable {s s' : State} {p : Prop}

/-- The trail, the watches and the queue agree with each other. A draw of a random number that fails may
lose an atom, so atoms wait for their decision only where `p` says that no draw fails. -/
structure Structured (p : Prop) (s : State) : Prop where
  coherent : s.Coherent
  watched : Watched s.watches s.clauses
  queued : s.Queued
  waiting : p → s.Waiting

theorem Extends.hasAtom_iff (e : Extends s s') (atom : Nat) : s'.HasAtom atom ↔ s.HasAtom atom := by
  rw [HasAtom, HasAtom, e.size_values]

theorem Remarked.hasAtom_iff (r : Remarked s s') (atom : Nat) : s'.HasAtom atom ↔ s.HasAtom atom := by
  rw [r.eq]
  exact Iff.rfl

theorem Extends.free (e : Extends s s') (h : s.Coherent) (h' : s'.Coherent) {atom : Nat}
    (free : s'.value? atom = none) : s.value? atom = none := by
  cases hv : s.value? atom with
  | none => rfl
  | some b =>
    have hl : (⟨atom, b⟩ : Lit) ∈ s.trail.literals := (h.value_iff _).1 (by simp [litValue?, hv])
    have := (h'.value_iff _).2 (e.mem hl)
    simp [litValue?, free] at this

theorem Queued.requeue (q : s.Queued) (linked : s'.activity.Linked)
    (size : s'.activity.values.size = s.activity.values.size) (size_values : s'.values.size = s.values.size)
    (waits : ∀ atom, s'.activity.isWaiting atom = true → s.activity.isWaiting atom = true) :
    s'.Queued where
  linked := linked
  hasRoom atom ha := by
    rw [size]
    exact q.hasRoom atom ⟨ha.1, by rw [← size_values]; exact ha.2⟩
  size_le := by
    rw [size, size_values]
    exact q.size_le
  hasAtom atom ha := by
    have := q.hasAtom atom (waits atom ha)
    exact ⟨this.1, by rw [size_values]; exact this.2⟩

theorem Remarked.queued (r : Remarked s s') (q : s.Queued) : s'.Queued :=
  q.requeue r.activity.linked r.activity.size_values (by rw [r.eq]) fun atom ha => by
    rwa [r.activity.isWaiting] at ha

namespace Structured

theorem grow (h : s.Structured p) (coherent : s'.Coherent) (watched : Watched s'.watches s'.clauses)
    (e : Extends s s') : s'.Structured p where
  coherent := coherent
  watched := watched
  queued := h.queued.requeue (by rw [e.activity]; exact h.queued.linked) (by rw [e.activity]) e.size_values
    fun atom ha => by rwa [e.activity] at ha
  waiting hp atom ha free := by
    rw [e.activity]
    exact h.waiting hp atom ((e.hasAtom_iff atom).1 ha) (e.free h.coherent coherent free)

theorem remarked (h : s.Structured p) (r : Remarked s s') : s'.Structured p where
  coherent := r.coherent h.coherent
  watched := by
    rw [r.eq]
    exact h.watched
  queued := r.queued h.queued
  waiting hp atom ha free := by
    rw [r.activity.isWaiting]
    refine h.waiting hp atom ((r.hasAtom_iff atom).1 ha) ?_
    rw [r.eq] at free
    exact free

theorem backjump (h : s.Structured p) (target : Nat) : (s.backjump target).Structured p where
  coherent := h.coherent.backjump target
  watched := by simpa using h.watched
  queued := h.queued.backjump h.coherent target
  waiting hp := (h.waiting hp).backjump h.queued h.coherent target

theorem refute (h : s.Structured p) : { s with refuted := true }.Structured p :=
  { h with
    coherent := { h.coherent with }
    queued := { h.queued with } }

end Structured

end Defeasible.Search.State
