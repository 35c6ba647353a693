import Defeasible.Proofs.Search.Checked.State

/-! The analysis of a conflict ends, and stays within its arrays. -/

namespace Defeasible.Search.Checked

open State

variable {s : State}

theorem bumpActivity_eq (q : s.Queued) {atom : Nat} (hasAtom : s.HasAtom atom) :
    bumpActivity s atom = pure (s.bumpActivity atom) := by
  have lt := q.hasRoom atom hasAtom
  have modified := q.linked.modify? atom (· + s.bump)
  rw [bumpActivity, modify_eq lt, pure_bind, State.bumpActivity]
  generalize (s.activity.modify? atom (· + s.bump)).getD s.activity = activity at modified ⊢
  have hlt : atom < activity.values.size := by
    rw [modified.size_values]
    exact lt
  have hget := Array.getElem?_eq_getElem hlt
  simp only [PriorityQueue.value?, get_eq hget, hget, pure_bind]
  split <;> rfl

theorem mark_eq {atom : Nat} (lt : atom < s.seen.size) (seen : Bool) :
    mark s atom seen = pure (s.mark atom seen) := by
  rw [mark, set_eq lt, pure_bind, State.mark]

theorem touch_eq (h : s.Coherent) (q : s.Queued) {l : Lit} (hasAtom : s.HasAtom l.atom) :
    (mark s l.atom true >>= fun s => bumpActivity s l.atom) = pure (s.touch l) := by
  have q' : (s.mark l.atom true).Queued := (remarked_mark q.linked l.atom true).queued q
  rw [mark_eq (h.lt_seen hasAtom), pure_bind, bumpActivity_eq q' hasAtom, touch]

theorem isSeen_eq (h : s.Coherent) {atom : Nat} (hasAtom : s.HasAtom atom) :
    get s.seen atom = pure (s.isSeen atom) :=
  get_eq_getD (h.lt_seen hasAtom) false

theorem level_eq (h : s.Coherent) {atom : Nat} (hasAtom : s.HasAtom atom) :
    get s.levels atom = pure (s.level atom) :=
  get_eq_getD (h.lt_levels hasAtom) 0

theorem reason_eq (h : s.Coherent) {atom : Nat} (hasAtom : s.HasAtom atom) :
    get s.reasons atom = pure s.reasons[atom]?.join := by
  have hget := Array.getElem?_eq_getElem (h.lt_reasons hasAtom)
  rw [get_eq hget, hget]
  rfl

theorem markLits_eq {level : Nat} {pivot : Option Nat} {ls : List Lit} {unresolved : Nat}
    {others : Array Lit} (h : s.Coherent) (q : s.Queued) (known : ∀ l ∈ ls, s.HasAtom l.atom) :
    markLits level pivot ls s unresolved others =
      pure (State.markLits level pivot ls s unresolved others) := by
  induction ls generalizing s unresolved others with
  | nil => rfl
  | cons l ls ih =>
    have hasAtom := known l (List.mem_cons_self ..)
    have rest := fun m hm => known m (List.mem_cons_of_mem l hm)
    have touched := remarked_touch q.linked l
    have hasAtom' (atom : Nat) (ha : s.HasAtom atom) : (s.touch l).HasAtom atom :=
      touched.retains.hasAtom atom ha
    have step := touch_eq h q hasAtom
    simp only [markLits, State.markLits, isSeen_eq h hasAtom, level_eq h hasAtom, pure_bind]
    by_cases hp : pivot = some l.atom
    · rw [if_pos hp, if_pos (.inl hp)]
      exact ih h q rest
    · by_cases skip : s.isSeen l.atom = true ∨ s.level l.atom = 0
      · rw [if_neg hp, if_pos skip, if_pos (.inr skip)]
        exact ih h q rest
      · rw [if_neg hp, if_neg skip, if_neg (not_or.2 ⟨hp, skip⟩), ← bind_assoc, step, pure_bind,
          level_eq (touched.coherent h) (hasAtom' _ hasAtom), pure_bind]
        change _ = pure (if (s.touch l).level l.atom = level then _ else _)
        split
        · exact ih (touched.coherent h) (touched.queued q) fun m hm => hasAtom' _ (rest m hm)
        · exact ih (touched.coherent h) (touched.queued q) fun m hm => hasAtom' _ (rest m hm)

theorem lastSeen?_eq (h : s.Coherent) {i : Nat} (bound : i ≤ s.trail.literals.size) :
    lastSeen? s i = pure (s.lastSeen? i) := by
  induction i with
  | zero => rfl
  | succ i ih =>
    have hget := Array.getElem?_eq_getElem (show i < s.trail.literals.size by omega)
    have hasAtom := h.hasAtom _ (Array.mem_of_getElem? hget)
    simp only [lastSeen?, State.lastSeen?, get_eq hget, hget, isSeen_eq h hasAtom, pure_bind]
    split
    · rfl
    · exact ih (by omega)

theorem resolve_eq {level fuel key i unresolved : Nat} {pivot : Option Nat} {others : Array Lit}
    {c : Array Lit} (h : s.Coherent) (q : s.Queued) (hc : s.clauses[key]? = some c) (bound : i < fuel)
    (hi : i ≤ s.trail.literals.size) :
    resolve level s key pivot unresolved others i =
      pure (State.resolve level fuel s key pivot unresolved others i) := by
  induction fuel generalizing s key i unresolved pivot others c with
  | zero => omega
  | succ fuel ih =>
    have known : ∀ l ∈ c.toList, s.HasAtom l.atom := fun l hl =>
      h.clause_hasAtom key c hc l (Array.mem_toList_iff.1 hl)
    have remarked := remarked_markLits q.linked level pivot c.toList unresolved others
    rw [resolve, loop_eq, State.resolve]
    dsimp only
    rw [get_eq hc, pure_bind, markLits_eq h q known, pure_bind, getD_of_getElem? hc]
    rcases hrun : State.markLits level pivot c.toList s unresolved others with ⟨t, count, mid⟩
    rw [hrun] at remarked
    have ht : t.Coherent := remarked.coherent h
    have hi' : i ≤ t.trail.literals.size := by rw [remarked.trail]; exact hi
    dsimp only
    by_cases none : count = 0
    · rw [if_pos none, if_pos none]
      rfl
    · rw [if_neg none, if_neg none, lastSeen?_eq ht hi', pure_bind]
      cases hlast : t.lastSeen? i with
      | none => rfl
      | some last =>
        obtain ⟨j, l⟩ := last
        obtain ⟨hj, hl, -⟩ := lastSeen?_some hlast
        have hasAtom := ht.hasAtom l (Array.mem_of_getElem? hl)
        have unmarked := remarked_mark remarked.activity.linked l.atom false
        have hu := unmarked.coherent ht
        have reason := reason_eq hu (unmarked.retains.hasAtom _ hasAtom)
        dsimp only
        rw [mark_eq (ht.lt_seen hasAtom), pure_bind, reason]
        by_cases one : count = 1
        · rw [if_pos one, if_pos one]
          rfl
        · rw [if_neg one, if_neg one, pure_bind]
          cases hr : (t.mark l.atom false).reasons[l.atom]?.join with
          | none => rfl
          | some key' =>
            obtain ⟨d, hd, -⟩ := hu.forced j l key' hl hr
            have shorter : j ≤ (t.mark l.atom false).trail.literals.size := by
              change j ≤ t.trail.literals.size
              omega
            exact ih hu (unmarked.queued (remarked.queued q)) hd (by omega) shorter

theorem unmarkAll_eq {ls : List Lit} (known : ∀ l ∈ ls, l.atom < s.seen.size) :
    unmarkAll ls s = pure (ls.foldl (fun s l => s.mark l.atom false) s) := by
  induction ls generalizing s with
  | nil => rfl
  | cons l ls ih =>
    rw [unmarkAll, mark_eq (known l (List.mem_cons_self ..)), pure_bind, List.foldl_cons]
    apply ih
    intro m hm
    simpa [State.mark] using known m (List.mem_cons_of_mem _ hm)

theorem highest_eq {others : Array Lit} (h : s.Coherent) (known : ∀ l ∈ others, s.HasAtom l.atom)
    {count i best : Nat} (bound : i + count ≤ others.size) (hbest : best < others.size) :
    highest s others count i best = pure (s.highest others count i best) := by
  induction count generalizing i best with
  | zero => rfl
  | succ count ih =>
    have hi : i < others.size := by omega
    have levelAt {p : Nat} (hp : p < others.size) :
        (get others p >>= fun l => get s.levels l.atom) = pure (s.level (others.getD p default).atom) := by
      have hget := Array.getElem?_eq_getElem hp
      rw [get_eq hget, pure_bind, level_eq h (known _ (Array.mem_of_getElem? hget))]
      simp [hp]
    rw [highest, State.highest]
    simp only [← bind_assoc, levelAt hi, levelAt hbest, pure_bind]
    have valid {p : Prop} [Decidable p] : (if p then i else best) < others.size := by
      split <;> assumption
    exact ih (by omega) valid

theorem analyse_eq {key : Nat} {c : Array Lit} (h : s.Coherent) (q : s.Queued)
    (unmarked : ∀ atom, s.isSeen atom = false) (above : 0 < s.trail.level)
    (hc : s.clauses[key]? = some c) (falsified : ∀ l ∈ c, l.negate ∈ s.trail.literals)
    (current : ∃ l ∈ c, s.level l.atom = s.trail.level) :
    analyse s key = pure (s.analyse key) := by
  obtain ⟨asserted, others, t, run, resolved, -⟩ :=
    resolve_conflict_spec h q.linked unmarked above hc falsified current
  have run' : Checked.resolve s.trail.level s key none 0 #[] s.trail.literals.size =
      pure (State.resolve s.trail.level (s.trail.literals.size + 1) s key none 0 #[] s.trail.literals.size) :=
    resolve_eq h q hc (Nat.lt_succ_self _) (Nat.le_refl _)
  rw [run] at run'
  have hkey := (Array.getElem?_eq_some_iff.1 hc).1
  have ht := resolved.remarked.coherent h
  have known : ∀ l ∈ others, t.HasAtom l.atom := fun l hl =>
    resolved.remarked.retains.hasAtom _ (h.hasAtom l.negate (resolved.asserting.others_false l hl))
  have lt : ∀ l ∈ others.toList, l.atom < t.seen.size := fun l hl =>
    ht.lt_seen (known l (Array.mem_toList_iff.1 hl))
  have remarked := remarked_foldl_unmark resolved.remarked.activity.linked others.toList
  rw [analyse, run', pure_bind, State.analyse, if_neg (Nat.not_le.2 hkey), run]
  dsimp only
  rw [unmarkAll_eq lt, pure_bind, ← Array.foldl_toList]
  generalize others.toList.foldl (fun s l => s.mark l.atom false) t = u at remarked ⊢
  have hu := remarked.coherent ht
  have known' : ∀ l ∈ others, u.HasAtom l.atom := fun l hl => remarked.retains.hasAtom _ (known l hl)
  by_cases empty : others = #[]
  · subst empty
    rfl
  · have pos : 0 < others.size := Array.size_pos_iff.2 empty
    have place := highest_spec (s := u) pos (show 1 + (others.size - 1) = others.size by omega) fun p hp => by
      obtain rfl : p = 0 := by omega
      exact Nat.le_refl _
    have highest := highest_eq hu known' (show 1 + (others.size - 1) ≤ others.size by omega) pos
    generalize u.highest others (others.size - 1) 1 0 = best at place highest
    have swapped := swap_eq pos place.1
    have hsize : 0 < (others.swapIfInBounds 0 best).size := by simpa using pos
    have first := Array.getElem?_eq_getElem hsize
    have mem := (perm_swapIfInBounds others 0 best).mem_iff.1 (Array.mem_of_getElem? first)
    rw [if_neg (by simpa using empty), highest, pure_bind, swapped, pure_bind, get_eq first, pure_bind,
      level_eq hu (known' _ mem), pure_bind, first]
    rfl

end Defeasible.Search.Checked
