import Defeasible.Search.Propagation
import Defeasible.Proofs.Search.Coherent

/-! Watched literals: the lists agree with the first two literals of the clauses, and a watched literal
that has become false is made good by the other one. -/

namespace Defeasible.Search.State

variable {s : State}

def watchCount (d : Array Lit) (w : Nat) : Nat :=
  (if d[0]?.map Lit.watchIndex = some w then 1 else 0) +
    if d[1]?.map Lit.watchIndex = some w then 1 else 0

def Watched (watches : Array (Array Nat)) (clauses : Array (Array Lit)) : Prop :=
  ∀ w key, (watches.getD w #[]).count key = watchCount (clauses.getD key #[]) w

def WatchPair (d : Array Lit) (a b : Lit) : Prop :=
  d[0]? = some a ∧ d[1]? = some b ∨ d[1]? = some a ∧ d[0]? = some b

theorem WatchPair.watchCount_pos {d : Array Lit} {a b : Lit} (h : WatchPair d a b) :
    0 < watchCount d a.watchIndex := by
  rw [watchCount]
  rcases h with ⟨h0, -⟩ | ⟨h1, -⟩
  · rw [h0, Option.map_some, if_pos rfl]
    exact Nat.add_pos_left Nat.one_pos _
  · rw [h1, Option.map_some, if_pos rfl]
    exact Nat.succ_pos _

/-- Where a watched literal is false by the first `m` literals of the trail, the other one is true, and
stays so at least as long. -/
def Guarded (s : State) (m : Nat) : Prop :=
  ∀ (key : Nat) (c : Array Lit) (a b : Lit), s.clauses[key]? = some c → WatchPair c a b →
    ∀ i < m, s.trail.literals[i]? = some a.negate →
      b ∈ s.trail.literals ∧ s.level b.atom ≤ s.level a.atom

theorem Guarded.mono {m n : Nat} (h : s.Guarded n) (le : m ≤ n) : s.Guarded m :=
  fun key c a b hc hp i hi hf => h key c a b hc hp i (by omega) hf

/-- What propagation may do to a state: it adds literals to the trail, each with a reason and at the
current level, and reorders clauses. -/
structure Extends (s s' : State) : Prop where
  settings : s'.settings = s.settings
  size_values : s'.values.size = s.values.size
  starts : s'.trail.starts = s.trail.starts
  head_le : s.trail.head ≤ s'.trail.head
  literals : ∀ (i : Nat) (l : Lit), s.trail.literals[i]? = some l → s'.trail.literals[i]? = some l
  level : ∀ l ∈ s.trail.literals, s'.level l.atom = s.level l.atom
  reason : ∀ l ∈ s.trail.literals, s'.reason? l.atom = s.reason? l.atom
  forced : ∀ l ∈ s'.trail.literals, l ∉ s.trail.literals → (s'.reason? l.atom).isSome
  size_clauses : s'.clauses.size = s.clauses.size
  clauses : ∀ (key : Nat) (c : Array Lit), s.clauses[key]? = some c →
    ∃ d, s'.clauses[key]? = some d ∧ d.Perm c
  activity : s'.activity = s.activity
  seen : s'.seen = s.seen
  refuted : s'.refuted = s.refuted

namespace Extends

theorem refl (s : State) : Extends s s :=
  ⟨rfl, rfl, rfl, Nat.le_refl _, fun _ _ h => h, fun _ _ => rfl, fun _ _ => rfl,
    fun _ h hn => absurd h hn, rfl, fun _ c h => ⟨c, h, .rfl⟩, rfl, rfl, rfl⟩

theorem mem {s s' : State} (e : Extends s s') {l : Lit} (h : l ∈ s.trail.literals) :
    l ∈ s'.trail.literals := by
  obtain ⟨i, hi⟩ := Array.mem_iff_getElem?.1 h
  exact Array.mem_of_getElem? (e.literals i l hi)

theorem trans {s s' s'' : State} (e : Extends s s') (e' : Extends s' s'') : Extends s s'' where
  settings := e'.settings.trans e.settings
  size_values := e'.size_values.trans e.size_values
  starts := e'.starts.trans e.starts
  head_le := Nat.le_trans e.head_le e'.head_le
  literals i l h := e'.literals i l (e.literals i l h)
  level l h := (e'.level l (e.mem h)).trans (e.level l h)
  reason l h := (e'.reason l (e.mem h)).trans (e.reason l h)
  forced l h hn := by
    by_cases hm : l ∈ s'.trail.literals
    · rw [e'.reason l hm]
      exact e.forced l hm hn
    · exact e'.forced l h hm
  size_clauses := e'.size_clauses.trans e.size_clauses
  clauses key c h := by
    obtain ⟨d, hd, hp⟩ := e.clauses key c h
    obtain ⟨d', hd', hp'⟩ := e'.clauses key d hd
    exact ⟨d', hd', hp'.trans hp⟩
  activity := e'.activity.trans e.activity
  seen := e'.seen.trans e.seen
  refuted := e'.refuted.trans e.refuted

end Extends

/-! Clauses in which a literal is turned to the second place. -/

theorem perm_swapIfInBounds {α : Type} (xs : Array α) (i j : Nat) : (xs.swapIfInBounds i j).Perm xs := by
  rw [Array.swapIfInBounds_def]
  split
  · split
    · exact Array.swap_perm _ _
    · exact .rfl
  · exact .rfl

theorem getElem?_swapIfInBounds {α : Type} {xs : Array α} {i j : Nat} (hi : i < xs.size)
    (hj : j < xs.size) (k : Nat) :
    (xs.swapIfInBounds i j)[k]? = if k = j then xs[i]? else if k = i then xs[j]? else xs[k]? := by
  rw [Array.swapIfInBounds_def, dif_pos hi, dif_pos hj, Array.getElem?_swap]
  grind

theorem turn_perm (f : Lit) (c : Array Lit) : (turn f c).Perm c := by
  unfold turn
  split
  · exact perm_swapIfInBounds _ _ _
  · exact .rfl

theorem turn_second {f : Lit} {d : Array Lit} (size : 2 ≤ d.size)
    (h : d[0]? = some f ∨ d[1]? = some f) : (turn f d)[1]? = some f := by
  unfold turn
  split
  · next h0 => rw [getElem?_swapIfInBounds (by omega) (by omega), if_pos rfl, h0]
  · next h0 => exact h.resolve_left h0

theorem watchCount_turn {f : Lit} {c : Array Lit} (size : 2 ≤ c.size) (w : Nat) :
    watchCount (turn f c) w = watchCount c w := by
  unfold turn
  split
  · simp only [watchCount, getElem?_swapIfInBounds (show 0 < c.size by omega) (show 1 < c.size by omega)]
    simp [Nat.add_comm]
  · rfl

theorem watchPair_turn {f : Lit} {c : Array Lit} (size : 2 ≤ c.size) (a b : Lit) :
    WatchPair (turn f c) a b ↔ WatchPair c a b := by
  unfold turn
  split
  · simp only [WatchPair, getElem?_swapIfInBounds (show 0 < c.size by omega) (show 1 < c.size by omega)]
    simp
    tauto
  · rfl

/-! The lists of clauses. -/

theorem getD_setIfInBounds {α : Type} {xs : Array α} {i : Nat} (hi : i < xs.size) (x d : α) (k : Nat) :
    (xs.setIfInBounds i x).getD k d = if k = i then x else xs.getD k d := by
  simp only [Array.getD_eq_getD_getElem?, Array.getElem?_setIfInBounds]
  grind

theorem getD_modify {α : Type} {xs : Array α} {i : Nat} (hi : i < xs.size) (f : α → α) (d : α) (k : Nat) :
    (xs.modify i f).getD k d = if k = i then f (xs.getD k d) else xs.getD k d := by
  simp only [Array.getD_eq_getD_getElem?, Array.getElem?_modify]
  grind

theorem swapRemove_of_push {ys : Array Nat} {last i : Nat} (hi : i < ys.size + 1) :
    swapRemove (ys.push last) i = if i = ys.size then ys else ys.setIfInBounds i last := by
  unfold swapRemove
  rw [Array.back?_push]
  apply Array.ext_getElem?
  intro k
  simp only [Array.getElem?_pop, Array.getElem?_setIfInBounds, Array.getElem?_push, Array.size_setIfInBounds,
    Array.size_push]
  split
  · next hik => grind
  · next hik => grind

theorem size_swapRemove {keys : Array Nat} {i : Nat} (hi : i < keys.size) :
    (swapRemove keys i).size + 1 = keys.size := by
  obtain ⟨ys, last, rfl⟩ := Array.exists_push_of_size_pos (show 0 < keys.size by omega)
  rw [swapRemove_of_push (by simpa using hi)]
  split <;> simp

theorem count_swapRemove {keys : Array Nat} {i key : Nat} (hi : keys[i]? = some key) (k : Nat) :
    (swapRemove keys i).count k + (if key = k then 1 else 0) = keys.count k := by
  have hlt := (Array.getElem?_eq_some_iff.1 hi).1
  obtain ⟨ys, last, rfl⟩ := Array.exists_push_of_size_pos (show 0 < keys.size by omega)
  rw [swapRemove_of_push (by simpa using hlt), Array.count_push]
  split
  · next h =>
    subst h
    rw [Array.getElem?_push_size] at hi
    cases hi
    simp
  · next h =>
    have hys : i < ys.size := by
      simp only [Array.size_push] at hlt
      omega
    rw [Array.getElem?_push_lt hys] at hi
    obtain rfl : ys[i] = key := Option.some.inj hi
    have hle := Array.boole_getElem_le_count (a := k) hys
    rw [Array.setIfInBounds, dif_pos hys, Array.count_set]
    simp only [beq_iff_eq] at hle ⊢
    omega

theorem getElem?_swapRemove {keys : Array Nat} {i p : Nat} (hp : p < i) (hi : i < keys.size) :
    (swapRemove keys i)[p]? = keys[p]? := by
  obtain ⟨ys, last, rfl⟩ := Array.exists_push_of_size_pos (show 0 < keys.size by omega)
  rw [swapRemove_of_push (by simpa using hi), Array.getElem?_push]
  simp only [Array.size_push] at hi
  split <;> grind

end Defeasible.Search.State
