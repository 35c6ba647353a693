import Defeasible.Proofs.PriorityQueue
import Mathlib.Order.WithBot

/-! The order of a queue whose values are totally ordered: no value is above the one at its parent's place. Sifting
restores it around a single place, and every operation keeps it. -/

universe u

namespace Defeasible.PriorityQueue

variable {V : Type u}

def parent (place : Nat) : Nat := (place - 1) / 2

theorem parent_lt {place : Nat} (pos : 0 < place) : parent place < place := by
  unfold parent
  omega

theorem parent_eq_iff {c place : Nat} (pos : 0 < c) : parent c = place ↔ c = 2 * place + 1 ∨ c = 2 * place + 2 := by
  unfold parent
  omega

/-! ### Places and values -/

theorem heap_swap {q : PriorityQueue V} {a b : Nat} (ha : a < q.heap.size) (hb : b < q.heap.size) (p : Nat) :
    (q.swap a b).heap[p]? = if p = b then q.heap[a]? else if p = a then q.heap[b]? else q.heap[p]? := by
  simp only [PriorityQueue.swap, Array.getElem?_eq_getElem ha, Array.getElem?_eq_getElem hb,
    Array.getElem?_setIfInBounds, Array.size_setIfInBounds]
  grind

@[simp] theorem values_swap (q : PriorityQueue V) (a b : Nat) : (q.swap a b).values = q.values := by
  unfold PriorityQueue.swap
  split <;> rfl

theorem size_heap_swap (q : PriorityQueue V) (a b : Nat) : (q.swap a b).heap.size = q.heap.size := by
  unfold PriorityQueue.swap
  split
  · simp
  · rfl

section Sift

variable [LT V] [DecidableLT V]

@[simp] theorem values_siftUp (fuel : Nat) (q : PriorityQueue V) (place : Nat) :
    (siftUp fuel q place).values = q.values := by
  induction fuel generalizing q place with
  | zero => rfl
  | succ fuel ih =>
    simp only [PriorityQueue.siftUp]
    split
    · rfl
    · split
      · rw [ih, values_swap]
      · rfl

@[simp] theorem values_siftDown (fuel : Nat) (q : PriorityQueue V) (place : Nat) :
    (siftDown fuel q place).values = q.values := by
  induction fuel generalizing q place with
  | zero => rfl
  | succ fuel ih =>
    simp only [PriorityQueue.siftDown]
    split
    · rfl
    · rw [ih, values_swap]

theorem values_remove (q : PriorityQueue V) (index : Nat) : (q.remove index).2.values = q.values := by
  unfold PriorityQueue.remove
  split
  · rfl
  · dsimp only
    split <;> simp [PriorityQueue.up, PriorityQueue.down]

theorem values_pop (q : PriorityQueue V) : q.pop.2.values = q.values := by
  unfold PriorityQueue.pop
  split
  · rfl
  · exact values_remove q _

end Sift

def rank (q : PriorityQueue V) (place : Nat) : WithBot V :=
  match q.heap[place]?.bind q.value? with
  | some v => v
  | none => ⊥

theorem rank_eq_bot_of_le {q : PriorityQueue V} {place : Nat} (le : q.heap.size ≤ place) : q.rank place = ⊥ := by
  rw [rank, Array.getElem?_eq_none le]
  rfl

theorem rank_eq {q : PriorityQueue V} {place index : Nat} {v : V} (at_place : q.heap[place]? = some index)
    (value : q.value? index = some v) : q.rank place = v := by
  rw [rank, at_place, Option.bind_some, value]

theorem rank_congr {q q' : PriorityQueue V} {p p' : Nat} (heap : q'.heap[p']? = q.heap[p]?)
    (values : q'.values = q.values) : q'.rank p' = q.rank p := by
  have value : q'.value? = q.value? := funext fun i => congrArg (fun values => values[i]?) values
  rw [rank, rank, heap, value]

theorem rank_swap {q : PriorityQueue V} {a b : Nat} (ha : a < q.heap.size) (hb : b < q.heap.size) (p : Nat) :
    (q.swap a b).rank p = if p = b then q.rank a else if p = a then q.rank b else q.rank p := by
  have heap := heap_swap ha hb p
  split_ifs at heap ⊢ <;> exact rank_congr heap (values_swap q a b)

theorem Linked.exists_value {q : PriorityQueue V} (h : q.Linked) {place index : Nat}
    (at_place : q.heap[place]? = some index) : ∃ v, q.value? index = some v := by
  have lt := h.lt_of_isWaiting ((h.isWaiting_iff index).2 ⟨place, at_place⟩)
  exact ⟨_, Array.getElem?_eq_getElem lt⟩

variable {q q' : PriorityQueue V} {place index : Nat}

def cut (q : PriorityQueue V) (place index : Nat) : PriorityQueue V :=
  let swapped := q.swap place (q.heap.size - 1)
  { swapped with heap := swapped.heap.pop, places := swapped.places.setIfInBounds index none }

theorem size_heap_cut (q : PriorityQueue V) (place index : Nat) : (q.cut place index).heap.size = q.heap.size - 1 := by
  rw [← size_heap_swap q place (q.heap.size - 1)]
  exact Array.size_pop

theorem Linked.linked_cut (h : q.Linked) (at_place : q.heap[place]? = some index) : (q.cut place index).Linked := by
  have lt := (Array.getElem?_eq_some_iff.1 at_place).1
  have swapped := h.swap place (q.heap.size - 1)
  refine (swapped.linked.pop_last ?_).linked
  rw [size_heap_swap, heap_swap lt (by omega), if_pos rfl, at_place]

theorem rank_cut_of_le {p : Nat} (out : q.heap.size - 1 ≤ p) : (q.cut place index).rank p = ⊥ :=
  rank_eq_bot_of_le (by rw [size_heap_cut]; exact out)

theorem rank_cut (lt : place < q.heap.size) {p : Nat} (inside : p < q.heap.size - 1) (apart : p ≠ place) :
    (q.cut place index).rank p = q.rank p := by
  refine rank_congr ?_ (values_swap q _ _)
  change (q.swap place (q.heap.size - 1)).heap.pop[p]? = q.heap[p]?
  rw [Array.getElem?_pop, size_heap_swap, if_pos inside, heap_swap lt (by omega), if_neg (by omega), if_neg apart]

variable [LinearOrder V]

theorem Linked.bot_lt_rank_iff (h : q.Linked) (place : Nat) : ⊥ < q.rank place ↔ place < q.heap.size := by
  constructor
  · intro lt
    by_contra out
    rw [rank_eq_bot_of_le (Nat.le_of_not_lt out)] at lt
    exact lt_irrefl _ lt
  · intro lt
    have at_place := Array.getElem?_eq_getElem lt
    obtain ⟨v, value⟩ := h.exists_value at_place
    rw [rank_eq at_place value]
    exact WithBot.bot_lt_coe v

theorem Linked.above_iff (h : q.Linked) {a b : Nat} (le : b ≤ a) : q.above a b = true ↔ q.rank b < q.rank a := by
  by_cases ha : a < q.heap.size
  · have at_a := Array.getElem?_eq_getElem ha
    have at_b := Array.getElem?_eq_getElem (Nat.lt_of_le_of_lt le ha)
    obtain ⟨x, hx⟩ := h.exists_value at_a
    obtain ⟨y, hy⟩ := h.exists_value at_b
    rw [rank_eq at_a hx, rank_eq at_b hy, WithBot.coe_lt_coe, above, at_a, at_b, Option.bind_some, Option.bind_some, hx,
      hy, decide_eq_true_iff]
  · have none : q.heap[a]? = none := Array.getElem?_eq_none (Nat.le_of_not_lt ha)
    rw [rank_eq_bot_of_le (Nat.le_of_not_lt ha), above, none]
    simp

/-! ### Sifting -/

def Ordered (q : PriorityQueue V) : Prop := ∀ c, 0 < c → q.rank c ≤ q.rank (parent c)

/-- The order may be broken around one place only, and would not be broken there without it. -/
structure OrderedAround (q : PriorityQueue V) (place : Nat) : Prop where
  others : ∀ c, 0 < c → c ≠ place → parent c ≠ place → q.rank c ≤ q.rank (parent c)
  across : 0 < place → ∀ c, 0 < c → parent c = place → q.rank c ≤ q.rank (parent place)

def Covers (q : PriorityQueue V) (place : Nat) : Prop := ∀ c, 0 < c → parent c = place → q.rank c ≤ q.rank place

def Covered (q : PriorityQueue V) (place : Nat) : Prop := 0 < place → q.rank place ≤ q.rank (parent place)

theorem OrderedAround.ordered (o : q.OrderedAround place) (covers : q.Covers place) (covered : q.Covered place) :
    q.Ordered := by
  intro c pos
  by_cases same : c = place
  · subst same
    exact covered pos
  · by_cases below : parent c = place
    · rw [below]
      exact covers c pos below
    · exact o.others c pos same below

theorem OrderedAround.covered_or_covers (o : q.OrderedAround place) : q.Covered place ∨ q.Covers place := by
  by_cases covered : q.Covered place
  · exact .inl covered
  · obtain ⟨pos, above⟩ : 0 < place ∧ q.rank (parent place) < q.rank place := by
      simpa [Covered] using covered
    exact .inr fun c hc below => (o.across pos c hc below).trans above.le

theorem Ordered.covered (o : q.Ordered) (place : Nat) : q.Covered place := o place

theorem Ordered.covers (o : q.Ordered) (place : Nat) : q.Covers place := by
  rintro c pos rfl
  exact o c pos

theorem OrderedAround.raise (o : q.OrderedAround place) (pos : 0 < place)
    (lt : place < q.heap.size) (above : q.rank (parent place) < q.rank place) :
    (q.swap place (parent place)).OrderedAround (parent place) ∧
      (q.swap place (parent place)).Covers (parent place) := by
  have up := parent_lt pos
  have rank (p : Nat) := rank_swap lt (up.trans lt) p
  have sibling {c : Nat} (hc : 0 < c) (other : c ≠ place) (same : parent c = parent place) :
      q.rank c ≤ q.rank (parent place) := same ▸ o.others c hc other (by omega)
  refine ⟨⟨fun c hc other apart => ?_, fun pos' c hc below => ?_⟩, fun c hc below => ?_⟩
  · rw [rank c, if_neg other, rank (parent c), if_neg apart]
    by_cases same : c = place
    · exact absurd (congrArg parent same) apart
    · rw [if_neg same]
      split
      · next below => exact o.across pos c hc below
      · next below => exact o.others c hc same below
  · have up' := parent_lt pos'
    have climbs : q.rank (parent place) ≤ q.rank (parent (parent place)) :=
      o.others (parent place) pos' (by omega) (by omega)
    have down : parent place < c := below ▸ parent_lt hc
    have same : (q.swap place (parent place)).rank (parent (parent place)) = q.rank (parent (parent place)) := by
      rw [rank, if_neg (by omega), if_neg (by omega)]
    rw [same, rank c, if_neg (by omega)]
    split
    · exact climbs
    · next other => exact (sibling hc other below).trans climbs
  · rw [rank c, if_neg (by have := parent_lt hc; omega), rank (parent place), if_pos rfl]
    split
    · exact above.le
    · next other => exact (sibling hc other below).trans above.le

theorem Linked.ordered_siftUp (h : q.Linked) {fuel : Nat} (bound : place ≤ fuel) (o : q.OrderedAround place)
    (covers : q.Covers place) : (PriorityQueue.siftUp fuel q place).Ordered := by
  induction fuel generalizing q place with
  | zero => exact o.ordered covers fun pos => absurd pos (by omega)
  | succ fuel ih =>
    rw [PriorityQueue.siftUp]
    split
    · next root => exact o.ordered covers fun pos => absurd pos (by omega)
    · next inner =>
      have pos := Nat.pos_of_ne_zero inner
      have up := parent_lt pos
      have above := h.above_iff up.le
      change Ordered (if q.above place (parent place) then
        PriorityQueue.siftUp fuel (q.swap place (parent place)) (parent place) else q)
      split
      · next isAbove =>
        have lt := (h.bot_lt_rank_iff place).1 (bot_le.trans_lt (above.1 isAbove))
        obtain ⟨o', covers'⟩ := o.raise pos lt (above.1 isAbove)
        exact ih (h.swap _ _).linked (by omega) o' covers'
      · next notAbove => exact o.ordered covers fun _ => not_lt.1 fun lt => notAbove (above.2 lt)

theorem Linked.greatest_spec (h : q.Linked) (place : Nat) :
    (q.greatest place = place ∨
      (0 < q.greatest place ∧ parent (q.greatest place) = place ∧ q.rank place < q.rank (q.greatest place))) ∧
    ∀ c, 0 < c → parent c = place → q.rank c ≤ q.rank (q.greatest place) := by
  have left := h.above_iff (a := 2 * place + 1) (b := place) (by omega)
  have right := h.above_iff (a := 2 * place + 2) (b := place) (by omega)
  have both := h.above_iff (a := 2 * place + 2) (b := 2 * place + 1) (by omega)
  have leftOf : parent (2 * place + 1) = place := (parent_eq_iff (by omega)).2 (.inl rfl)
  have rightOf : parent (2 * place + 2) = place := (parent_eq_iff (by omega)).2 (.inr rfl)
  have cases (top : Nat) (notLeft : q.rank (2 * place + 1) ≤ q.rank top)
      (notRight : q.rank (2 * place + 2) ≤ q.rank top) : ∀ c, 0 < c → parent c = place → q.rank c ≤ q.rank top := by
    intro c pos below
    rcases (parent_eq_iff pos).1 below with rfl | rfl
    · exact notLeft
    · exact notRight
  unfold greatest
  dsimp only
  split
  · next isLeft =>
    split
    · next isRight =>
      have more := both.1 isRight
      exact ⟨.inr ⟨by omega, rightOf, (left.1 isLeft).trans more⟩, cases _ more.le le_rfl⟩
    · next notRight =>
      exact ⟨.inr ⟨by omega, leftOf, left.1 isLeft⟩, cases _ le_rfl (not_lt.1 fun lt => notRight (both.2 lt))⟩
  · next notLeft =>
    have less := not_lt.1 fun lt => notLeft (left.2 lt)
    split
    · next isRight =>
      have more := right.1 isRight
      exact ⟨.inr ⟨by omega, rightOf, more⟩, cases _ (less.trans more.le) le_rfl⟩
    · next notRight => exact ⟨.inl rfl, cases _ less (not_lt.1 fun lt => notRight (right.2 lt))⟩

theorem OrderedAround.lower (o : q.OrderedAround place) (covered : q.Covered place) {top : Nat} (pos : 0 < top)
    (below : parent top = place) (lt : top < q.heap.size) (above : q.rank place < q.rank top)
    (greatest : ∀ c, 0 < c → parent c = place → q.rank c ≤ q.rank top) :
    (q.swap place top).OrderedAround top ∧ (q.swap place top).Covered top := by
  have down : place < top := below ▸ parent_lt pos
  have rank (p : Nat) := rank_swap (down.trans lt) lt p
  have raised : (q.swap place top).rank place = q.rank top := by rw [rank, if_neg (by omega), if_pos rfl]
  refine ⟨⟨fun c hc other apart => ?_, fun _ c hc under => ?_⟩, fun _ => ?_⟩
  · rw [rank c, if_neg other, rank (parent c), if_neg apart]
    have up := parent_lt hc
    by_cases same : c = place
    · subst same
      rw [if_pos rfl, if_neg (by omega)]
      exact o.across hc top pos below
    · rw [if_neg same]
      split
      · next sibling => exact greatest c hc sibling
      · next elsewhere => exact o.others c hc same elsewhere
  · have up := parent_lt hc
    rw [below, raised, rank c, if_neg (by omega), if_neg (by omega), ← under]
    exact o.others c hc (by omega) (by omega)
  · rw [below, raised, rank top, if_pos rfl]
    exact above.le

theorem Linked.ordered_siftDown (h : q.Linked) {fuel : Nat} (bound : q.heap.size ≤ fuel + place)
    (o : q.OrderedAround place) (covered : q.Covered place) : (PriorityQueue.siftDown fuel q place).Ordered := by
  induction fuel generalizing q place with
  | zero =>
    refine o.ordered (fun c hc below => ?_) covered
    have := parent_lt hc
    rw [rank_eq_bot_of_le (by omega)]
    exact bot_le
  | succ fuel ih =>
    obtain ⟨choice, greatest⟩ := h.greatest_spec place
    rw [PriorityQueue.siftDown]
    split
    · next same =>
      rw [same] at greatest
      exact o.ordered greatest covered
    · next other =>
      obtain ⟨pos, below, above⟩ := choice.resolve_left other
      have lt := (h.bot_lt_rank_iff _).1 (bot_le.trans_lt above)
      obtain ⟨o', covered'⟩ := o.lower covered pos below lt above greatest
      have down := parent_lt pos
      exact ih (h.swap _ _).linked (by rw [size_heap_swap]; omega) o' covered'

theorem Linked.ordered_up (h : q.Linked) (o : q.OrderedAround place) (covers : q.Covers place) : (q.up place).Ordered :=
  h.ordered_siftUp le_rfl o covers

theorem Linked.ordered_down (h : q.Linked) (o : q.OrderedAround place) (covered : q.Covered place) :
    (q.down place).Ordered :=
  h.ordered_siftDown (Nat.le_add_right _ _) o covered

theorem Linked.up_eq_self (h : q.Linked) (covered : q.Covered place) : q.up place = q := by
  cases place with
  | zero => rfl
  | succ place =>
    have above := h.above_iff (parent_lt (Nat.succ_pos place)).le
    have notAbove : q.above (place + 1) (parent (place + 1)) = false :=
      Bool.eq_false_iff.2 fun isAbove => absurd (above.1 isAbove) (not_lt.2 (covered (Nat.succ_pos place)))
    rw [PriorityQueue.up, PriorityQueue.siftUp, if_neg (Nat.succ_ne_zero place)]
    exact if_neg (by rw [show (place + 1 - 1) / 2 = parent (place + 1) from rfl, notAbove]; exact Bool.false_ne_true)

theorem Linked.down_eq_self (h : q.Linked) (covers : q.Covers place) : q.down place = q := by
  have same : q.greatest place = place := by
    refine (h.greatest_spec place).1.resolve_right fun ⟨pos, below, above⟩ => ?_
    exact absurd (covers _ pos below) (not_le.2 above)
  rw [PriorityQueue.down]
  cases q.heap.size with
  | zero => rfl
  | succ size =>
    rw [PriorityQueue.siftDown, if_pos same]

/-! ### Operations -/

theorem Linked.ordered_down_up (h : q.Linked) (o : q.OrderedAround place) : ((q.down place).up place).Ordered := by
  rcases o.covered_or_covers with covered | covers
  · have ordered := h.ordered_down o covered
    rwa [(h.down place).linked.up_eq_self (ordered.covered place)]
  · rw [h.down_eq_self covers]
    exact h.ordered_up o covers

theorem Linked.ordered_repair (h : q.Linked) (at_place : q.place? index = some place) (o : q.OrderedAround place) :
    (q.repair index).Ordered := by
  rw [PriorityQueue.repair, at_place]
  dsimp only
  rcases o.covered_or_covers with covered | covers
  · rw [h.up_eq_self covered, at_place]
    exact h.ordered_down o covered
  · have ordered := h.ordered_up o covers
    split
    · exact ordered
    · rwa [(h.up place).linked.down_eq_self (ordered.covers _)]

theorem Ordered.around (o : q.Ordered) (same : ∀ p, p ≠ place → q'.rank p = q.rank p) : q'.OrderedAround place where
  others c hc other apart := by
    rw [same c other, same _ apart]
    exact o c hc
  across pos c hc below := by
    have up := parent_lt hc
    have up' := parent_lt pos
    rw [same c (by omega), same _ (by omega)]
    exact (below ▸ o c hc).trans (o place pos)

theorem Linked.ordered_setValue (h : q.Linked) (o : q.Ordered) (index : Nat) (v : V) :
    ({ q with values := q.values.setIfInBounds index v }.repair index).Ordered := by
  have h' := (h.withValues (q.values.setIfInBounds index v) (by simp)).linked
  have other {p : Nat} (apart : q.heap[p]? ≠ some index) :
      { q with values := q.values.setIfInBounds index v }.rank p = q.rank p := by
    unfold rank
    cases at_p : q.heap[p]? with
    | none => rfl
    | some i =>
      have : index ≠ i := fun same => apart (same ▸ at_p)
      simp [value?, Array.getElem?_setIfInBounds, this]
  cases at_place : q.place? index with
  | none =>
    have out (p : Nat) : q.heap[p]? ≠ some index := fun at_p => by
      rw [(h.heap_iff p index).1 at_p] at at_place
      cases at_place
    have idle : { q with values := q.values.setIfInBounds index v }.repair index =
        { q with values := q.values.setIfInBounds index v } := by
      have at_place' : { q with values := q.values.setIfInBounds index v }.place? index = none := at_place
      rw [PriorityQueue.repair, at_place']
    rw [idle]
    intro c hc
    rw [other (out c), other (out _)]
    exact o c hc
  | some place =>
    have around : { q with values := q.values.setIfInBounds index v }.OrderedAround place := by
      refine o.around fun p apart => other fun at_p => apart ?_
      rw [(h.heap_iff p index).1 at_p] at at_place
      exact Option.some.inj at_place
    exact h'.ordered_repair at_place around

theorem Linked.ordered_modify? (h : q.Linked) (o : q.Ordered) {f : V → V} (changed : q.modify? index f = some q') :
    q'.Ordered := by
  obtain ⟨v, -, rfl⟩ := Option.map_eq_some_iff.1 changed
  exact h.ordered_setValue o index (f v)

theorem Linked.ordered_put [OfNat V 0] (h : q.Linked) (o : q.Ordered) (index : Nat) (v : V) :
    (q.put index v).2.Ordered := by
  unfold put
  split
  · exact h.ordered_setValue o index v
  · next new =>
    -- the indices that wait keep their values
    have same (p : Nat) : PriorityQueue.rank { q with
        values := (q.values ++ Array.replicate (index - q.values.size) 0).push v
        places := q.places ++ Array.replicate (index + 1 - q.places.size) none } p = q.rank p := by
      unfold rank
      cases at_p : q.heap[p]? with
      | none => rfl
      | some i =>
        have lt := h.lt_of_isWaiting ((h.isWaiting_iff i).2 ⟨p, at_p⟩)
        have value : ((q.values ++ Array.replicate (index - q.values.size) 0).push v)[i]? = q.values[i]? := by
          rw [Array.getElem?_push, if_neg (by simp; omega), Array.getElem?_append, if_pos lt]
        simp only [Option.bind_some, value?, value]
    intro c hc
    rw [same c, same (parent c)]
    exact o c hc

theorem Linked.ordered_enqueue (h : q.Linked) (o : q.Ordered) (index : Nat) : (q.enqueue index).2.Ordered := by
  unfold PriorityQueue.enqueue
  split
  · exact o
  · next new =>
    obtain ⟨known, out⟩ := not_or.1 new
    have gains := h.push (Nat.lt_of_not_le known) (by simpa using out)
    have before {p : Nat} (lt : p < q.heap.size) : PriorityQueue.rank { q with
        heap := q.heap.push index
        places := q.places.setIfInBounds index (some q.heap.size) } p = q.rank p :=
      rank_congr (by rw [Array.getElem?_push, if_neg (by omega)]) rfl
    have after {p : Nat} (gt : q.heap.size < p) : PriorityQueue.rank { q with
        heap := q.heap.push index
        places := q.places.setIfInBounds index (some q.heap.size) } p = ⊥ :=
      rank_eq_bot_of_le (by rw [Array.size_push]; exact gt)
    refine gains.linked.ordered_up ⟨fun c hc other _ => ?_, fun _ c hc below => ?_⟩ fun c hc below => ?_
    · have up := parent_lt hc
      rcases Nat.lt_or_gt_of_ne other with lt | gt
      · rw [before lt, before (by omega)]
        exact o c hc
      · rw [after gt]
        exact bot_le
    · rw [after (below ▸ parent_lt hc)]
      exact bot_le
    · rw [after (below ▸ parent_lt hc)]
      exact bot_le

theorem remove_eq (at_place : q.place? index = some place) :
    (q.remove index).2 = if place < q.heap.size - 1 then ((q.cut place index).down place).up place
      else q.cut place index := by
  rw [← size_heap_cut q place index, PriorityQueue.remove, at_place]
  exact apply_ite Prod.snd (place < (q.cut place index).heap.size) _ _

theorem Linked.ordered_remove (h : q.Linked) (o : q.Ordered) (index : Nat) : (q.remove index).2.Ordered := by
  cases waits : q.place? index with
  | none =>
    rw [PriorityQueue.remove, waits]
    exact o
  | some place =>
    have at_place := (h.heap_iff place index).2 waits
    have lt := (Array.getElem?_eq_some_iff.1 at_place).1
    have others {c : Nat} (hc : 0 < c) (other : c < q.heap.size - 1 → c ≠ place ∧ parent c ≠ place) :
        (q.cut place index).rank c ≤ (q.cut place index).rank (parent c) := by
      by_cases inside : c < q.heap.size - 1
      · obtain ⟨other, apart⟩ := other inside
        rw [rank_cut lt inside other, rank_cut lt ((parent_lt hc).trans inside) apart]
        exact o c hc
      · rw [rank_cut_of_le (Nat.le_of_not_lt inside)]
        exact bot_le
    rw [remove_eq waits]
    split
    · refine (h.linked_cut at_place).ordered_down_up ⟨fun c hc other apart => others hc fun _ => ⟨other, apart⟩, ?_⟩
      intro pos c hc below
      have up := parent_lt pos
      have down : place < c := below ▸ parent_lt hc
      by_cases inside : c < q.heap.size - 1
      · rw [rank_cut lt inside (by omega), rank_cut lt (by omega) (by omega)]
        exact (below ▸ o c hc).trans (o place pos)
      · rw [rank_cut_of_le (Nat.le_of_not_lt inside)]
        exact bot_le
    · next last =>
      -- the last index leaves itself
      intro c hc
      have up := parent_lt hc
      exact others hc fun inside => ⟨by omega, by omega⟩

theorem Ordered.mapValues (o : q.Ordered) {f : V → V} (monotone : Monotone f) : (q.mapValues f).Ordered := by
  have rank (p : Nat) : (q.mapValues f).rank p = (q.rank p).map f := by
    have heap : (q.mapValues f).heap = q.heap := rfl
    unfold PriorityQueue.rank
    rw [heap]
    cases q.heap[p]? with
    | none => rfl
    | some i =>
      simp only [Option.bind_some, PriorityQueue.mapValues, value?, Array.getElem?_map]
      cases q.values[i]? <;> rfl
  intro c hc
  rw [rank, rank]
  exact monotone.withBot_map (o c hc)

end Defeasible.PriorityQueue
