import Defeasible.Proofs.Luby
import Defeasible.Proofs.Search.Reached

/-! When a search restarts. Nothing but a restart changes the schedule, so that the number of restarts so far tells
which element of the sequence sets the next one. -/

namespace Defeasible.Search.State

variable {s t : State} {settings : Settings} {assumptions clause : List Lit} {deadline : Deadline}

structure Pace where
  settings : Settings
  luby : Luby
  threshold : Nat
  restarts : Nat

def pace (s : State) : Pace := ⟨s.settings, s.luby, s.restartThreshold, s.counters.restarts⟩

theorem pace_backjump (s : State) (target : Nat) : (s.backjump target).pace = s.pace := by
  rw [backjump_eq]
  rfl

theorem pace_visit (falsified : Lit) (fuel : Nat) (s : State) (keys : Array Nat) (i : Nat) :
    (visit falsified fuel s keys i).2.1.pace = s.pace := by
  induction fuel generalizing s keys i with
  | zero => rfl
  | succ fuel ih =>
    rw [visit]
    split
    · rfl
    · dsimp only
      split
      · exact ih _ _ _
      · split
        · exact ih _ _ _
        · split
          · exact ih _ _ _
          · rfl

theorem pace_propagateLit (s : State) (l : Lit) : (s.propagateLit l).2.pace = s.pace :=
  pace_visit l.negate _ { s with watches := s.watches.setIfInBounds l.negate.watchIndex #[] } _ 0

theorem pace_propagateUpTo (fuel : Nat) (s : State) : (propagateUpTo fuel s).2.pace = s.pace := by
  induction fuel generalizing s with
  | zero => rfl
  | succ fuel ih =>
    rw [propagateUpTo]
    split
    · rfl
    · next l trail _ =>
      have drawn := pace_propagateLit
        { s with trail, counters := { s.counters with propagations := s.counters.propagations + 1 } } l
      dsimp only
      split
      · next run => rwa [run] at drawn
      · next run =>
        rw [run] at drawn
        exact (ih _).trans drawn

theorem pace_propagate (s : State) : s.propagate.2.pace = s.pace := pace_propagateUpTo _ s

theorem pace_addClause (run : s.addClause clause = .ok t) : t.pace = s.pace := by
  rw [← pace_backjump s 0]
  rw [addClause] at run
  generalize s.backjump 0 = u at run
  split at run
  · cases run
    rfl
  · split at run
    · cases run
    · cases run
      rfl
    · cases run
      rfl
    · next l _ =>
      have drawn := pace_propagate (u.assign l none)
      split at run
      · next known =>
        rw [known] at drawn
        cases run
        exact drawn
      · next known =>
        rw [known] at drawn
        cases run
        exact drawn
    · cases run
      rfl

theorem pace_bumpActivity (s : State) (atom : Atom) : (s.bumpActivity atom).pace = s.pace := by
  rw [bumpActivity]
  split
  · split
    · rfl
    · rfl
  · rfl

theorem pace_markLits (level : Nat) (pivot : Option Atom) (ls : List Lit) (s : State) (unresolved : Nat)
    (others : Array Lit) : (markLits level pivot ls s unresolved others).1.pace = s.pace := by
  induction ls generalizing s unresolved others with
  | nil => rfl
  | cons l ls ih =>
    have touched : ((s.mark l.atom true).bumpActivity l.atom).pace = s.pace := pace_bumpActivity _ _
    rw [markLits]
    split
    · exact ih _ _ _
    · dsimp only
      split
      · exact (ih _ _ _).trans touched
      · exact (ih _ _ _).trans touched

theorem pace_resolve (level fuel : Nat) (s : State) (key : Nat) (pivot : Option Atom) (unresolved : Nat)
    (others : Array Lit) (i : Nat) : (resolve level fuel s key pivot unresolved others i).2.pace = s.pace := by
  induction fuel generalizing s key pivot unresolved others i with
  | zero => rfl
  | succ fuel ih =>
    have marked := pace_markLits level pivot (s.clauses.getD key #[]).toList s unresolved others
    rw [resolve]
    dsimp only
    generalize markLits level pivot (s.clauses.getD key #[]).toList s unresolved others = outcome at marked ⊢
    obtain ⟨u, count, mid⟩ := outcome
    dsimp only at marked ⊢
    split
    · exact marked
    · split
      · exact marked
      · split
        · exact marked
        · split
          · exact marked
          · exact (ih _ _ _ _ _ _).trans marked

theorem pace_analyse (s : State) (key : Nat) : (s.analyse key).2.pace = s.pace := by
  rw [analyse]
  split
  · rfl
  · have resolved := pace_resolve s.trail.level (s.trail.literals.size + 1) s key none 0 #[] s.trail.literals.size
    generalize resolve s.trail.level (s.trail.literals.size + 1) s key none 0 #[] s.trail.literals.size =
      outcome at resolved ⊢
    obtain ⟨e | ⟨asserted, others⟩, u⟩ := outcome
    · exact resolved
    · dsimp only
      rw [← Array.foldl_toList]
      exact List.foldlRecOn (motive := fun v : State => v.pace = s.pace) others.toList _ resolved
        fun _ same _ _ => same

theorem pace_learn (s : State) (learnt : Learnt) : (s.learn learnt).pace = s.pace := by
  rw [learn, ← pace_backjump s learnt.backjumpLevel]
  split
  · rfl
  · rfl

theorem pace_popUnvalued (fuel : Nat) (s : State) : (popUnvalued fuel s).2.pace = s.pace := by
  induction fuel generalizing s with
  | zero => rfl
  | succ fuel ih =>
    rw [popUnvalued]
    split
    · rfl
    · dsimp only
      split
      · rfl
      · exact ih _

theorem pace_anyAtom (s : State) : s.anyAtom.2.pace = s.pace := by
  rw [anyAtom]
  dsimp only
  split
  · exact pace_popUnvalued _ s
  · split
    · rfl
    · rfl

theorem pace_choose (s : State) : s.choose.2.pace = s.pace := by
  rw [choose]
  dsimp only
  split
  · split
    · rfl
    · exact pace_anyAtom _
    · exact pace_popUnvalued _ _
  · exact pace_popUnvalued _ s

theorem pace_polarity (s : State) (atom : Atom) : (s.polarity atom).2.pace = s.pace := by
  rw [polarity]
  split
  · rfl
  · rfl

theorem pace_decideFreely (s : State) : s.decideFreely.2.pace = s.pace := by
  have chosen := pace_choose s
  rw [decideFreely]
  generalize s.choose = outcome at chosen ⊢
  obtain ⟨e | _ | atom, u⟩ := outcome
  · exact chosen
  · exact chosen
  · have polar := pace_polarity u atom
    dsimp only
    generalize u.polarity atom = outcome at polar ⊢
    obtain ⟨e | polarity, v⟩ := outcome
    · exact polar.trans chosen
    · exact polar.trans chosen

theorem pace_makeDecision (s : State) (assumptions : List Lit) : (s.makeDecision assumptions).2.pace = s.pace := by
  rw [makeDecision]
  split
  · exact pace_decideFreely s
  · split
    · rfl
    · split
      · rfl
      · rfl
      · rfl

def left : (Except Error Report × State) ⊕ State → State := Sum.elim Prod.snd id

structure Scheduled (settings : Settings) (s : State) : Prop where
  settings_eq : s.settings = settings
  luby : s.luby = ({} : Luby).advance (s.counters.restarts + 1)
  threshold : s.restartThreshold =
    settings.lubyUnit.value * ((({} : Luby).advance s.counters.restarts).next.1.getD 1).toNat

namespace Scheduled

theorem of_pace (h : s.Scheduled settings) (same : t.pace = s.pace) : t.Scheduled settings := by
  simp only [pace, Pace.mk.injEq] at same
  obtain ⟨settings_eq, luby, threshold, restarts⟩ := same
  exact ⟨settings_eq.trans h.settings_eq, by rw [luby, restarts, h.luby], by rw [threshold, restarts, h.threshold]⟩

theorem restart (h : s.Scheduled settings) : s.restart.Scheduled settings := by
  refine Scheduled.of_pace ?_ (pace_backjump _ 0)
  refine ⟨h.settings_eq, ?_, ?_⟩
  · rw [Luby.advance_succ, ← h.luby]
    rfl
  · rw [← h.luby, ← h.settings_eq]
    rfl

theorem restartIfDue (h : s.Scheduled settings) : s.restartIfDue.Scheduled settings := by
  rw [State.restartIfDue]
  split
  · exact h.restart
  · exact h

theorem resolveConflict (h : s.Scheduled settings) (key : Nat) : (s.resolveConflict key).2.Scheduled settings := by
  have analysed := pace_analyse s key
  rw [State.resolveConflict]
  generalize s.analyse key = outcome at analysed ⊢
  obtain ⟨e | learnt, u⟩ := outcome
  · exact h.of_pace analysed
  · have learns : (u.learn learnt).decayActivity.pace = s.pace := (pace_learn u learnt).trans analysed
    exact (h.of_pace learns).restartIfDue

theorem pass (h : s.Scheduled settings) (assumptions : List Lit) (deadline : Deadline) :
    (left (State.pass assumptions deadline s)).Scheduled settings := by
  have drawn := h.of_pace (pace_propagate s)
  rw [State.pass]
  generalize s.propagate = outcome at drawn ⊢
  obtain ⟨_ | key, u⟩ := outcome
  · have decided := pace_makeDecision { u with checks := u.checks + 1 } assumptions
    dsimp only
    split
    · exact drawn.of_pace rfl
    · have kept := drawn.of_pace (decided.trans rfl)
      generalize State.makeDecision _ assumptions = outcome at kept ⊢
      obtain ⟨e | decision, v⟩ := outcome
      · exact kept
      · cases decision with
        | decided | satisfied | assumptionConflict | exhausted => exact kept
  · have resolved := (drawn.of_pace (t := u.countConflict) rfl).resolveConflict key
    dsimp only
    split
    · exact drawn.of_pace rfl
    · generalize u.countConflict.resolveConflict key = outcome at resolved ⊢
      obtain ⟨e | _, v⟩ := outcome
      · exact resolved
      · exact resolved

theorem search (h : s.Scheduled settings) (assumptions : List Lit) (deadline : Deadline) (passes : Nat) :
    (State.search assumptions deadline passes s).2.Scheduled settings := by
  induction passes generalizing s with
  | zero => exact h
  | succ passes ih =>
    have passed := h.pass assumptions deadline
    rw [State.search]
    generalize State.pass assumptions deadline s = outcome at passed ⊢
    cases outcome with
    | inl answer => exact passed
    | inr u => exact ih passed

theorem backjump (h : s.Scheduled settings) (target : Nat) : (s.backjump target).Scheduled settings :=
  h.of_pace (pace_backjump s target)

theorem calls (h : s.Scheduled settings) (call : Calls s t) : t.Scheduled settings := by
  cases call with
  | newAtom => exact h.of_pace rfl
  | addClause clause _ _ run => exact h.of_pace (pace_addClause run)
  | solve assumptions deadline r _ _ run =>
    cases run with
    | refuted => exact h.backjump 0
    | searched passes _ _ _ run =>
      have searched := (h.backjump 0).search assumptions deadline passes
      rwa [run] at searched
  | backjump target => exact h.backjump target
  | makeDecision assumptions d _ _ run =>
    have decided := h.of_pace (pace_makeDecision s assumptions)
    rwa [run] at decided
  | propagate => exact h.of_pace (pace_propagate s)
  | analyse key => exact h.of_pace (pace_analyse s key)

end Scheduled

theorem scheduled_new (settings : Settings) : (State.new settings).Scheduled settings where
  settings_eq := rfl
  luby := rfl
  threshold := by
    generalize start : ({} : Luby) = luby
    rw [new, start]
    rfl

theorem scheduled_of_reached (reached : Reached settings s) : s.Scheduled settings := by
  induction reached with
  | refl => exact scheduled_new settings
  | tail _ call ih => exact ih.calls call

theorem restartThreshold_of_reached (reached : Reached settings s) :
    s.restartThreshold = settings.lubyUnit.value *
      if s.counters.restarts + 1 < Luby.lastCall then lubyElement (s.counters.restarts + 1) else 1 := by
  have answer := Luby.answer_eq s.counters.restarts
  rw [(scheduled_of_reached reached).threshold]
  congr 1
  split at answer
  · next before =>
    obtain ⟨w, given, value⟩ := Option.map_eq_some_iff.1 answer
    rw [given, if_pos before]
    exact value
  · next past =>
    rw [Option.map_eq_none_iff.1 answer, if_neg past]
    rfl

/-- The calls of `next` on a new sequence give its elements, one after the other, until the first word is at its bound;
from then on there is no answer. The second word never doubles past its bound, and a sequence that has given no answer
gives none ever after. However a search has been used, the conflicts from one restart to the next are as many as the
unit of its settings times the element that follows those of its restarts so far. -/
theorem restarts_follow_sequence :
    (∀ k, 1 ≤ k → lubyElement (2 ^ k - 1) = 2 ^ (k - 1)) ∧
    (∀ k i, 2 ^ (k - 1) ≤ i → i < 2 ^ k - 1 → lubyElement i = lubyElement (i - 2 ^ (k - 1) + 1)) ∧
    (∀ n, (({} : Luby).advance n).next.1.map UInt32.toNat =
      if n + 1 < Luby.lastCall then some (lubyElement (n + 1)) else none) ∧
    (∀ n, (({} : Luby).advance n).CountsPast ↔ Luby.lastCall ≤ n + 1) ∧
    (∀ n, ¬ (({} : Luby).advance n).DoublesPast) ∧
    (∀ l : Luby, l.next.1 = none ↔ l.CountsPast ∨ l.DoublesPast) ∧
    (∀ l : Luby, l.next.1 = none → ∀ n, (l.advance n).next.1 = none) ∧
    ∀ settings s, Reached settings s → s.restartThreshold = settings.lubyUnit.value *
      if s.counters.restarts + 1 < Luby.lastCall then lubyElement (s.counters.restarts + 1) else 1 := by
  refine ⟨fun k pos => ?_, fun k i le lt => ?_, Luby.answer_eq, Luby.countsPast_iff, Luby.not_doublesPast,
    fun l => Luby.next_eq_none_iff, fun l none n => ?_, fun settings s => restartThreshold_of_reached⟩
  · obtain ⟨j, rfl⟩ : ∃ j, k = j + 1 := ⟨k - 1, by omega⟩
    exact lubyElement_last j
  · obtain ⟨j, rfl⟩ : ∃ j, k = j + 1 := by
      cases k with
      | zero => exact absurd lt (Nat.not_lt_zero i)
      | succ j => exact ⟨j, rfl⟩
    exact lubyElement_again le (Nat.add_lt_of_lt_sub lt)
  · rwa [Luby.advance_of_none none]

def eager : Settings := { lubyUnit := ⟨"luby", 0, UInt32.size - 1, 1⟩ }

def contradictory : List Operation :=
  List.replicate 4 .newAtom ++
    (List.range 16).map (fun m => .addClause ((List.range 4).map fun i => ⟨i + 1, m.testBit i⟩)) ++
    [.solve [] .never]

theorem restarts_follow_sequence_contradictory :
    lubyElement 7 = 4 ∧ lubyElement 11 = lubyElement 4 ∧
      (⟨4294967295, 1⟩ : Luby).next.1 = none ∧ ((⟨4294967295, 1⟩ : Luby).advance 3).next.1 = none ∧
      ∃ s, Reached eager s ∧ s.counters.restarts = 6 ∧ s.restartThreshold = 4 := by
  obtain ⟨last, again, -, -, -, -, silent, schedule⟩ := restarts_follow_sequence
  have seventh : lubyElement 7 = 4 := last 3 (by decide)
  have none : (⟨4294967295, 1⟩ : Luby).next.1 = none := by decide
  have probable : eager.Probable := Settings.probable_of_phaseSaving rfl (by decide +kernel)
  have reached : Reached eager ((State.new eager).run contradictory) := reached_run probable (by decide +kernel)
  have restarts : ((State.new eager).run contradictory).counters.restarts = 6 := by decide +kernel
  refine ⟨seventh, again 4 11 (by decide) (by decide), none, silent _ none 3, _, reached, restarts, ?_⟩
  rw [schedule eager _ reached, restarts, if_pos (by decide), seventh]
  rfl

end Defeasible.Search.State
