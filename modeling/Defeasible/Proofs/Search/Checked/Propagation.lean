import Defeasible.Proofs.Search.Checked.State

/-! Propagation ends, and stays within its arrays. -/

namespace Defeasible.Search.Checked

open State

variable {s : State}

theorem findWatch_eq {c : Array Lit} (known : ∀ l ∈ c, l.atom < s.values.size) {count i : Nat}
    (bound : i + count ≤ c.size) : findWatch s c count i = pure (s.findWatch c count i) := by
  induction count generalizing i with
  | zero => rfl
  | succ count ih =>
    have hget := Array.getElem?_eq_getElem (show i < c.size by omega)
    have hvalue := litValue?_eq (known _ (Array.mem_of_getElem? hget))
    simp only [findWatch, State.findWatch, get_eq hget, hvalue, hget, pure_bind]
    split
    · rfl
    · exact ih (by omega)

theorem turn_eq (f : Lit) {c : Array Lit} (size : 2 ≤ c.size) : turn f c = pure (State.turn f c) := by
  have hget := Array.getElem?_eq_getElem (show 0 < c.size by omega)
  simp only [turn, State.turn, get_eq hget, hget, pure_bind, Option.some.injEq,
    swap_eq (show 0 < c.size by omega) (show 1 < c.size by omega)]
  split <;> rfl

theorem setClause_eq {key : Nat} (h : key < s.clauses.size) (c : Array Lit) :
    setClause s key c = pure (s.setClause key c) := by
  rw [setClause, set_eq h, pure_bind, State.setClause]

theorem moveWatch_eq {key place : Nat} {d : Array Lit} {new : Lit} (h : key < s.clauses.size)
    (size : 2 ≤ d.size) (hnew : d[place]? = some new) (lt : new.watchIndex < s.watches.size) :
    moveWatch s key d place = pure (s.moveWatch key d place) := by
  have hplace := (Array.getElem?_eq_some_iff.1 hnew).1
  have second : (d.swapIfInBounds 1 place)[1]? = some new := by
    rw [getElem?_swapIfInBounds (by omega) hplace]
    grind
  have hsecond : (d.swapIfInBounds 1 place).getD 1 default = new := by simp [second]
  rw [moveWatch, swap_eq (by omega) hplace, pure_bind, setClause_eq h, pure_bind, get_eq second, pure_bind,
    watch_eq (s := s.setClause key _) lt, State.moveWatch, hsecond]

theorem visit_eq {f : Lit} {j : Nat} {keys : Array Nat} {i fuel : Nat} (v : Visiting f j s keys i)
    (bound : keys.size ≤ i + fuel) : visit f s keys i = pure (State.visit f fuel s keys i) := by
  induction fuel generalizing s keys i with
  | zero =>
    rw [visit, loop_eq]
    dsimp only
    rw [Array.getElem?_eq_none (by omega)]
    rfl
  | succ fuel ih =>
    rw [visit, loop_eq]
    dsimp only
    cases hk : keys[i]? with
    | none =>
      simp only [State.visit, hk]
      rfl
    | some key =>
      obtain ⟨c, other, hc, first, second, hc', turned⟩ := v.exists_turned hk
      have hi := (Array.getElem?_eq_some_iff.1 hk).1
      have hkey := (Array.getElem?_eq_some_iff.1 hc).1
      have hother : (State.turn f c).getD 0 default = other := by simp [first]
      simp only [State.visit, hk, getD_of_getElem? hc, hother, get_eq hc, pure_bind,
        turn_eq f (v.coherent.clause_size key c hc), get_eq first, setClause_eq hkey]
      -- from here on, only the turned clause and its state count
      generalize s.setClause key (State.turn f c) = t at hc' turned ⊢
      generalize State.turn f c = d at first second hc' ⊢
      have h := turned.coherent
      have hsize := h.clause_size key d hc'
      have known : ∀ l ∈ d, t.HasAtom l.atom := h.clause_hasAtom key d hc'
      have hasAtom := known other (Array.mem_of_getElem? first)
      have found := findWatch_eq (fun l hl => (known l hl).2) (show 2 + (d.size - 2) ≤ d.size by omega)
      simp only [litValue?_eq hasAtom.2, found, pure_bind]
      have moves (place : Nat) (hfind : t.findWatch d (d.size - 2) 2 = some place) :
          moveWatch t key d place = pure (t.moveWatch key d place) ∧
            visit f (t.moveWatch key d place) (swapRemove keys i) i =
              pure (State.visit f fuel (t.moveWatch key d place) (swapRemove keys i) i) := by
        obtain ⟨hplace, new, hnew, -⟩ := findWatch_some hfind
        have lt := h.watchIndex_lt (known new (Array.mem_of_getElem? hnew))
        have := size_swapRemove hi
        exact ⟨moveWatch_eq (Array.getElem?_eq_some_iff.1 hc').1 hsize hnew lt,
          ih (turned.moved hk hc' second hplace hnew) (by omega)⟩
      cases hvalue : t.litValue? other with
      | none =>
        cases hfind : t.findWatch d (d.size - 2) 2 with
        | some place =>
          obtain ⟨moved, rest⟩ := moves place hfind
          simp only [moved, pure_bind]
          exact rest
        | none =>
          have forced := turned.forced hk hc' first second ((value?_eq_none_iff t other).2 hvalue)
            (h.rest_false hfind)
          simp only [assign_eq h hasAtom, pure_bind]
          exact ih forced (by omega)
      | some b =>
        cases b with
        | true =>
          exact ih (turned.skip hk hc' (.inl ⟨first, second⟩) ((h.value_iff other).1 hvalue)) (by omega)
        | false =>
          cases hfind : t.findWatch d (d.size - 2) 2 with
          | some place =>
            obtain ⟨moved, rest⟩ := moves place hfind
            simp only [moved, pure_bind]
            exact rest
          | none => rfl

theorem propagateLit_eq {l : Lit} {j : Nat} (h : s.Coherent) (w : Watched s.watches s.clauses)
    (hl : s.trail.literals[j]? = some l) : propagateLit s l = pure (s.propagateLit l) := by
  have lt : l.negate.watchIndex < s.watches.size :=
    h.watchIndex_lt (h.hasAtom l (Array.mem_of_getElem? hl))
  have start := Visiting.start h w hl
  have run := visit_eq start (Nat.le_of_eq (Nat.zero_add _).symm)
  rcases hv : State.visit l.negate (s.watches.getD l.negate.watchIndex #[]).size
    { s with watches := s.watches.setIfInBounds l.negate.watchIndex #[] }
    (s.watches.getD l.negate.watchIndex #[]) 0 with ⟨found, t, keys⟩
  obtain ⟨i, v, -⟩ := (visit_spec start (by omega) hv).visiting
  rw [hv] at run
  simp only [propagateLit, State.propagateLit, get_eq_getD lt #[], set_eq lt, run, hv, pure_bind,
    set_eq v.watchIndex_lt]

theorem propagateUpTo_eq {fuel : Nat} (h : s.Coherent) (w : Watched s.watches s.clauses)
    (bound : s.values.size < s.trail.head + fuel) : propagate s = pure (propagateUpTo fuel s) := by
  induction fuel generalizing s with
  | zero =>
    have := h.head_le
    have := h.size_literals_le
    omega
  | succ fuel ih =>
    rw [propagate, loop_eq, propagateUpTo]
    dsimp only
    cases hl : s.trail.literals[s.trail.head]? with
    | none =>
      simp only [Trail.next?, hl, Option.map_none]
      rfl
    | some l =>
      have hlt := (Array.getElem?_eq_some_iff.1 hl).1
      simp only [Trail.next?, hl, Option.map_some]
      set s₁ : State :=
        { s with
          trail := { s.trail with head := s.trail.head + 1 }
          counters := { s.counters with propagations := s.counters.propagations + 1 } } with hs₁
      have h₁ : s₁.Coherent := { h with head_le := hlt }
      rw [propagateLit_eq h₁ w hl, pure_bind]
      rcases hp : s₁.propagateLit l with ⟨found, t⟩
      have draws := propagateLit_spec h₁ w hl hp
      cases found with
      | some key => rfl
      | none =>
        have head_eq : t.trail.head = s.trail.head + 1 := draws.head_eq
        have size : t.values.size = s.values.size := draws.grows.size_values
        exact ih draws.coherent draws.watched (by omega)

theorem propagate_eq (h : s.Coherent) (w : Watched s.watches s.clauses) :
    propagate s = pure s.propagate :=
  propagateUpTo_eq h w (by omega)

end Defeasible.Search.Checked
