import Defeasible.Proofs.Theory.Dialogue

/-! Requests to a theory that shares what is remembered, beside the same requests to the theory alone. There may be
other models in the replies, but no other verdict. -/

namespace Defeasible

theorem Settings.untimed_eq {settings : Settings} (untimed : settings.solveLimit? = none) :
    settings.untimed = settings := by
  have no_limit : settings.timeLimit.value = 0 := by
    by_contra limited
    rw [solveLimit?, if_neg limited] at untimed
    cases untimed
  unfold Settings.untimed
  rw [← no_limit]

namespace Theory

variable {t u u₀ : Theory} {counter : Option Counter} {C : Error → Prop}

def alone (t : Theory) : Theory := { t with cached := false }

@[simp] theorem strata_alone (t : Theory) : t.alone.strata = t.strata := rfl

@[simp] theorem minNecessity?_alone (t : Theory) : t.alone.minNecessity? = t.minNecessity? := rfl

@[simp] theorem literalCount_alone (t : Theory) : t.alone.literalCount = t.literalCount := rfl

@[simp] theorem withLevels_alone (t : Theory) (levels : List Level) :
    t.alone.withLevels levels = (t.withLevels levels).alone := rfl

@[simp] theorem simplifyByUnits_alone (t : Theory) : t.alone.simplifyByUnits = t.simplifyByUnits.alone := rfl

@[simp] theorem simplifyByResolution_alone (t : Theory) :
    t.alone.simplifyByResolution = t.simplifyByResolution.alone := rfl

structure Shares (t : Theory) : Prop where
  cached : t.cached = true
  regular : t.Regular
  probable : t.settings.Probable
  untimed : t.settings.solveLimit? = none

theorem Shares.withLevels (shares : t.Shares) (levels : List Level) : (t.withLevels levels).Shares :=
  ⟨shares.cached, regular_withLevels t levels, shares.probable, shares.untimed⟩

theorem Shares.simplifyByUnits (shares : t.Shares) : t.simplifyByUnits.Shares := shares.withLevels _

theorem Shares.simplifyByResolution (shares : t.Shares) : t.simplifyByResolution.Shares := shares.withLevels _

theorem Shares.withSettings (shares : t.Shares) {settings : Settings} (probable : settings.Probable)
    (untimed : settings.solveLimit? = none) : (t.withSettings settings).Shares :=
  ⟨shares.cached, shares.regular.withSettings _, probable, untimed⟩

structure Counterpart (u u₀ : Theory) : Prop where
  shares : u.cached = true → u.Shares
  same : u₀ = u.alone

theorem Shares.counterpart (shares : u.Shares) : Counterpart u u.alone := ⟨fun _ => shares, rfl⟩

section Queries

variable (shares : t.Shares)

include shares

theorem Shares.unlimited_eq : t.unlimited false = t.alone := by
  unfold unlimited alone
  rw [Settings.untimed_eq shares.untimed]

theorem Shares.tracks {α : Type} {q q₀ : Query α} {R : α → α → Prop}
    (tracks : q.Tracks q₀ R t.settings.CutsShort) : q.Tracks q₀ R C := by
  intro s s₀ sound sound₀
  have beside := tracks s s₀ sound sound₀
  revert beside
  rcases q.run s with ⟨r, s'⟩
  rcases q₀.run s₀ with ⟨r₀, s₀'⟩
  intro beside
  cases beside with
  | cut _ cut => exact absurd shares.untimed cut.hinders.limited
  | ok sound sound₀ related => exact .ok sound sound₀ related
  | error sound sound₀ => exact .error sound sound₀

theorem SameLevels.alone (same : t.SameLevels false u u₀) : u.Shares ∧ u₀ = u.alone := by
  obtain ⟨levels, rfl, rfl⟩ := same
  rw [shares.unlimited_eq]
  exact ⟨shares.withLevels levels, rfl⟩

theorem withoutImplied_beside :
    t.withoutImplied.Tracks t.alone.withoutImplied (fun u u₀ => u.Shares ∧ u₀ = u.alone) C := by
  rw [← shares.unlimited_eq]
  exact shares.tracks ((withoutImplied_keeps shares.probable).imp fun _ _ => SameLevels.alone shares)

theorem simplifyBySat_beside :
    t.simplifyBySat.Tracks t.alone.simplifyBySat (fun u u₀ => u.Shares ∧ u₀ = u.alone) C := by
  rw [← shares.unlimited_eq]
  exact shares.tracks ((simplifyBySat_keeps shares.probable).imp fun _ _ => SameLevels.alone shares)

theorem withoutDrowned_beside : t.withoutDrowned.Tracks t.alone.withoutDrowned Counterpart C := by
  have tracks := @solve_tracks t false shares.probable ∅
  rw [shares.unlimited_eq] at tracks
  refine (shares.tracks tracks).bind fun found found₀ same => ?_
  rcases eq_level_cases same with ⟨rfl, rfl⟩ | ⟨witness, witness₀, n, rfl, rfl⟩
  · exact .pure ⟨nofun, rfl⟩
  · dsimp only
    rw [minNecessity?_alone]
    split
    · exact .pure shares.counterpart
    · exact .pure (shares.withLevels _).counterpart

theorem mergedLevel_beside (clauses : ClauseSet) :
    (t.mergedLevel clauses).Tracks (t.alone.mergedLevel clauses) Eq C := by
  unfold mergedLevel
  dsimp only
  rw [withLevels_alone, simplifyByUnits_alone, simplifyByResolution_alone]
  have reduced := (shares.withLevels [⟨.certain, clauses⟩]).simplifyByUnits.simplifyByResolution
  refine (withoutImplied_beside reduced).bind fun u u₀ same => ?_
  obtain ⟨shares', rfl⟩ := same
  refine (simplifyBySat_beside shares').bind fun u u₀ same => .pure ?_
  rw [same.2, strata_alone]

end Queries

theorem mergedWeights_beside (steady : ∀ count ∈ counter, count.Steady) (t : Theory)
    (second top : ClauseSet) (weights : List Necessity) :
    (t.mergedWeights counter second top weights).Tracks (t.alone.mergedWeights counter second top weights) Eq C := by
  cases counter with
  | none => exact .pure rfl
  | some count =>
    change (t.mergedWeights (some count) second top weights).Tracks (t.mergedWeights (some count) second top weights)
      Eq C
    unfold mergedWeights
    dsimp only
    split
    · refine Query.Tracks.bind (R := Eq) ?_ fun n _ same => .pure (by rw [same])
      unfold mergedNecessity
      refine Query.Tracks.bind (.mapM fun n _ => ?_) fun counts _ same => same ▸ ?_
      · exact (steady count rfl _).tracks.bind fun _ _ same => .pure (by rw [same])
      · dsimp only
        cases Necessity.ofFloat _ with
        | ok n => exact .pure rfl
        | error e => exact .throw _
    · exact .pure rfl

theorem collapseUpTo_beside (steady : ∀ count ∈ counter, count.Steady) (maxLiterals fuel : Nat)
    (shares : t.Shares) (weights : List Necessity) :
    (collapseUpTo maxLiterals counter fuel t weights).Tracks (collapseUpTo maxLiterals counter fuel t.alone weights)
      Counterpart C := by
  induction fuel generalizing t weights with
  | zero => exact .pure shares.counterpart
  | succ fuel ih =>
    rw [collapseUpTo, collapseUpTo, literalCount_alone, strata_alone]
    by_cases small : t.literalCount ≤ maxLiterals
    · rw [if_pos small, if_pos small]
      exact .pure shares.counterpart
    · rw [if_neg small, if_neg small]
      split
      · refine (mergedLevel_beside shares _).bind fun merged _ same => same ▸ ?_
        refine (mergedWeights_beside steady t _ _ weights).bind fun weights' _ same => same ▸ ?_
        cases weights' with
        | none => exact .pure shares.counterpart
        | some weights' => exact ih (shares.withLevels _) weights'
      · exact .pure shares.counterpart

end Theory

/-! ### Requests and replies -/

inductive Request
  | solveAt (n : Necessity) (evidence : Evidence)
  | solve (evidence : Evidence)
  | implies (evidence : Evidence) (consequent : Clause)
  | isImplied (c : Clause) (level strictCut : ClauseSet)
  | withoutDrowned
  | withoutImplied
  | simplifyBySat
  | collapse (maxLiterals : Nat)
  | collapseCounted (maxLiterals : Nat) (count : Counter) (steady : count.Steady)

inductive Reply
  | model (answer : Option Witness)
  | preferred (answer : Option (Witness × Necessity))
  | truth (b : Bool)
  | theory (t : Theory)

/-- What a reply says, whichever models it has and whoever remembers. -/
inductive Verdict
  | consistent (b : Bool)
  | level (n : Option Necessity)
  | truth (b : Bool)
  | theory (t : Theory)

def Reply.verdict : Reply → Verdict
  | model answer => .consistent answer.isSome
  | preferred answer => .level (answer.map Prod.snd)
  | truth b => .truth b
  | theory t => .theory t.alone

/-- Whether a reply says the same as that of the theory alone. A theory shares, if it has anything from the one that
was asked. -/
structure Reply.Matches (reply reply₀ : Reply) : Prop where
  verdict : reply.verdict = reply₀.verdict
  shares : ∀ u, reply = .theory u → u.cached = true → u.Shares

namespace Reply.Matches

theorem model {a b : Option Witness} (same : a.isSome = b.isSome) : Matches (.model a) (.model b) := by
  refine ⟨congrArg Verdict.consistent same, ?_⟩
  rintro _ ⟨⟩

theorem preferred {a b : Option (Witness × Necessity)} (same : a.map Prod.snd = b.map Prod.snd) :
    Matches (.preferred a) (.preferred b) := by
  refine ⟨congrArg Verdict.level same, ?_⟩
  rintro _ ⟨⟩

theorem truth {b c : Bool} (same : b = c) : Matches (.truth b) (.truth c) := by
  refine ⟨congrArg Verdict.truth same, ?_⟩
  rintro _ ⟨⟩

theorem theory {u u₀ : Theory} (made : Theory.Counterpart u u₀) : Matches (.theory u) (.theory u₀) := by
  obtain ⟨shares, rfl⟩ := made
  refine ⟨rfl, ?_⟩
  rintro _ ⟨⟩
  exact shares

end Reply.Matches

namespace Request

variable {t : Theory}

def query (request : Request) (t : Theory) : Query Reply :=
  match request with
  | solveAt n evidence => t.solveAt n evidence >>= fun answer => pure (.model answer)
  | solve evidence => t.solve evidence >>= fun answer => pure (.preferred answer)
  | implies evidence consequent => t.implies evidence consequent >>= fun b => pure (.truth b)
  | isImplied c level strictCut => t.isImplied c level strictCut >>= fun b => pure (.truth b)
  | withoutDrowned => t.withoutDrowned >>= fun u => pure (.theory u)
  | withoutImplied => t.withoutImplied >>= fun u => pure (.theory u)
  | simplifyBySat => t.simplifyBySat >>= fun u => pure (.theory u)
  | collapse maxLiterals => t.collapse maxLiterals >>= fun u => pure (.theory u)
  | collapseCounted maxLiterals count _ => t.collapseCounted maxLiterals count >>= fun u => pure (.theory u)

theorem query_stepwise (request : Request) (t : Theory) : (request.query t).Stepwise t.solveProblem True := by
  cases request with
  | solveAt n evidence => exact (Theory.solveAt_stepwise t n evidence).bind fun _ => .pure _
  | solve evidence => exact (Theory.solve_stepwise t evidence).bind fun _ => .pure _
  | implies evidence consequent => exact (Theory.implies_stepwise t evidence consequent).bind fun _ => .pure _
  | isImplied c level strictCut => exact (Theory.follows_stepwise t c _ strictCut).bind fun _ => .pure _
  | withoutDrowned => exact (Theory.withoutDrowned_stepwise t).bind fun _ => .pure _
  | withoutImplied => exact (Theory.withoutImplied_stepwise t).bind fun _ => .pure _
  | simplifyBySat => exact (Theory.simplifyBySat_stepwise t).bind fun _ => .pure _
  | collapse maxLiterals =>
    exact (Theory.collapseUpTo_stepwise Counter.steady_none (fun _ => trivial) maxLiterals _ t _).bind fun _ => .pure _
  | collapseCounted maxLiterals count steady =>
    exact (Theory.collapseUpTo_stepwise steady.some (fun _ => trivial) maxLiterals _ t _).bind fun _ => .pure _

theorem query_solveAt (ground : t.isGround = true) (n : Necessity) (evidence : Evidence) :
    (Dialogue.asks (t.cut n ∪ Theory.units evidence.toList) fun answer => .ends (.ok (.model answer))).query
      t.solveProblem = (solveAt n evidence).query t := by
  rw [query, Theory.solveAt, Theory.requireGround, if_pos ground, pure_bind]
  rfl

theorem query_beside {C : Error → Prop} (request : Request) (shares : t.Shares) :
    (request.query t).Tracks (request.query t.alone) Reply.Matches C := by
  have kept {u u₀ : Theory} (made : u.Shares ∧ u₀ = u.alone) : Reply.Matches (.theory u) (.theory u₀) :=
    .theory ⟨fun _ => made.1, made.2⟩
  have probable := shares.probable
  cases request with
  | solveAt n evidence =>
    refine Query.Tracks.bind ?_ fun _ _ same => .pure (.model same)
    exact shares.unlimited_eq ▸ shares.tracks (Theory.solveAt_tracks probable n evidence)
  | solve evidence =>
    refine Query.Tracks.bind ?_ fun _ _ same => .pure (.preferred same)
    exact shares.unlimited_eq ▸ shares.tracks (Theory.solve_tracks probable evidence)
  | implies evidence consequent =>
    refine Query.Tracks.bind ?_ fun _ _ same => .pure (.truth same)
    exact shares.unlimited_eq ▸ shares.tracks (Theory.implies_tracks probable evidence consequent)
  | isImplied c level strictCut =>
    refine Query.Tracks.bind ?_ fun _ _ same => .pure (.truth same)
    exact shares.unlimited_eq ▸ shares.tracks (Theory.follows_tracks probable c (level.erase c) strictCut)
  | withoutDrowned => exact (Theory.withoutDrowned_beside shares).bind fun _ _ made => .pure (.theory made)
  | withoutImplied => exact (Theory.withoutImplied_beside shares).bind fun _ _ made => .pure (kept made)
  | simplifyBySat => exact (Theory.simplifyBySat_beside shares).bind fun _ _ made => .pure (kept made)
  | collapse maxLiterals =>
    refine Query.Tracks.bind ?_ fun _ _ made => .pure (.theory made)
    exact Theory.collapseUpTo_beside Counter.steady_none maxLiterals _ shares _
  | collapseCounted maxLiterals count steady =>
    refine Query.Tracks.bind ?_ fun _ _ made => .pure (.theory made)
    exact Theory.collapseUpTo_beside steady.some maxLiterals _ shares _

def Modelled (t : Theory) : Request → Reply → Prop
  | solveAt n evidence, .model (some witness) => t.ModelAt n evidence witness.world
  | solve evidence, .preferred (some (witness, n)) => t.ModelAt n evidence witness.world
  | _, _ => True

theorem modelled_of_run {request : Request} {reply : Reply} {s s' : Session} (shares : t.Shares)
    (truthful : s.Truthful) (run : (request.query t).run s = (.ok reply, s')) : request.Modelled t reply := by
  have askable := Theory.askable_any shares.regular shares.probable
  cases request with
  | solveAt n evidence =>
    refine Query.Meets.of_run ((askable.solveAt_meets (fun _ _ => trivial) n).bind fun answer finds => ?_) truthful run
    refine .pure ?_
    cases answer with
    | none => trivial
    | some witness => exact finds
  | solve evidence =>
    refine Query.Meets.of_run ((askable.solve_meets fun _ _ => trivial).bind fun answer prefers => ?_) truthful run
    refine .pure ?_
    cases answer with
    | none => trivial
    | some found => exact prefers.2
  | _ => trivial

end Request

end Defeasible
