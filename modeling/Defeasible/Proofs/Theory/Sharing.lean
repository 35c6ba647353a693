import Mathlib.Logic.Hydra
import Defeasible.Proofs.Theory.Request

/-! Theories that share what is remembered. Each holds its queries problem by problem, and the others ask in between, so
an answer may come from a solve with other settings. What carries the proof is that answers are never revised: a query
that has come this far would come as far at once in any later session, without another solve. -/

namespace Defeasible

namespace AnswerCache

variable {c c' c'' : AnswerCache} {problem : ClauseSet} {answer : Option Witness}
  {result : Except Error (Option Witness)} {asked : Nat}

def Within (c c' : AnswerCache) : Prop :=
  ∀ problem answer, c.find? problem = some answer → c'.find? problem = some answer

theorem Within.refl (c : AnswerCache) : c.Within c := fun _ _ => id

theorem Within.trans (within : c.Within c') (within' : c'.Within c'') : c.Within c'' :=
  fun problem answer known => within' problem answer (within problem answer known)

structure Counted (c : AnswerCache) (asked : Nat) : Prop where
  total : c.hits + c.misses = asked
  few : c.size ≤ c.misses
  distinct : (c.entries.map Prod.fst).Nodup

theorem counted_new : ({} : AnswerCache).Counted 0 := ⟨rfl, Nat.le_refl 0, List.nodup_nil⟩

theorem find?_store (c : AnswerCache) (problem other : ClauseSet) (answer : Option Witness) :
    (c.store problem answer).find? other = if problem = other then some answer else c.find? other := by
  unfold store find?
  rw [List.find?_cons]
  by_cases same : problem = other
  · simp [same]
  · simp [same]

theorem not_mem_of_unknown (unknown : c.find? problem = none) : problem ∉ c.entries.map Prod.fst := by
  intro mem
  obtain ⟨e, he, rfl⟩ := List.mem_map.1 mem
  have missing := List.find?_eq_none.1 (Option.map_eq_none_iff.1 unknown) e he
  simp at missing

theorem Put.counted (put : c.Put problem result c') (counted : c.Counted asked) : c'.Counted (asked + 1) := by
  obtain ⟨rfl, few, distinct⟩ := counted
  cases put with
  | known => exact ⟨Nat.add_right_comm _ 1 _, few, distinct⟩
  | solved unknown =>
    exact ⟨rfl, Nat.succ_le_succ few, List.nodup_cons.2 ⟨not_mem_of_unknown unknown, distinct⟩⟩
  | failed => exact ⟨rfl, Nat.le_succ_of_le few, distinct⟩

theorem Put.within (put : c.Put problem result c') : c.Within c' := by
  cases put with
  | known => exact .refl c
  | solved unknown =>
    intro other answer known
    rw [find?_store, if_neg]
    · exact known
    · rintro rfl
      rw [unknown] at known
      cases known
  | failed => exact .refl c

theorem Put.find? (put : c.Put problem (.ok answer) c') : c'.find? problem = some answer := by
  cases put with
  | known known => exact known
  | solved => rw [find?_store, if_pos rfl]

end AnswerCache

theorem Query.Beside.results {α β : Type} {R : α → β → Prop} {r : Except Error α × Session}
    {r₀ : Except Error β × Session} (beside : Beside R (fun _ => False) r r₀) :
    (∃ a b, r.1 = .ok a ∧ r₀.1 = .ok b ∧ R a b) ∨ ∃ e, r.1 = .error e ∧ r₀.1 = .error e := by
  cases beside with
  | cut _ cut => exact cut.elim
  | ok _ _ related => exact .inl ⟨_, _, rfl, rfl, related⟩
  | error => exact .inr ⟨_, rfl, rfl⟩

namespace Theory.Shares

variable {t : Theory} {problem : ClauseSet} {result : Except Error (Option Witness)} {s s' : Session}
  (shares : t.Shares) (run : (t.solveProblem problem).run s = (result, s'))

include shares

theorem solveProblem_eq :
    t.solveProblem problem = Query.remembered problem (Query.solveFresh t.settings problem) := by
  unfold solveProblem
  rw [if_pos shares.cached]

include run

theorem put : s.cache.Put problem result s'.cache := by
  rw [shares.solveProblem_eq] at run
  exact Query.put_remembered run

theorem settles (sound : s.Sound) : s'.Sound ∧ ∀ answer, result = .ok answer → Settles problem.toList [] answer := by
  have outcome := @solveProblem_outcome t shares.probable problem s sound
  rw [run] at outcome
  cases outcome with
  | answer sound' _ settles =>
    refine ⟨sound', ?_⟩
    rintro _ ⟨⟩
    exact settles
  | cut sound' => exact ⟨sound', nofun⟩
  | unmade sound' => exact ⟨sound', nofun⟩

theorem again {s₁ : Session} (sound : s.Sound) (sound₁ : s₁.Sound) (within : s'.cache.Within s₁.cache) :
    ∃ s₁', (t.solveProblem problem).run s₁ = (result, s₁') ∧ s₁'.cache.entries = s₁.cache.entries := by
  cases result with
  | ok answer =>
    have known : s₁.cache.find? problem = some answer := within problem answer (shares.put run).find?
    refine ⟨{ s₁ with cache := s₁.cache.hit }, ?_, rfl⟩
    rw [shares.solveProblem_eq]
    unfold Query.run Query.remembered
    rw [known]
  | error e =>
    have beside := @solveProblem_tracks t t.cached shares.probable problem s s₁ sound sound₁
    have same : t.unlimited t.cached = t := by
      unfold unlimited
      rw [Settings.untimed_eq shares.untimed]
    rw [same, run] at beside
    rcases failed : (t.solveProblem problem).run s₁ with ⟨result₁, s₁'⟩
    rw [failed] at beside
    cases beside with
    | cut _ cut => exact absurd shares.untimed cut.hinders.limited
    | error => exact ⟨s₁', rfl, entries_solveProblem_of_error failed⟩

end Theory.Shares

/-! ### Teams -/

structure Asker where
  theory : Theory
  request : Request
  rest : Dialogue Reply

structure Team where
  askers : List Asker := []
  session : Session
  log : List (ClauseSet × Except Error (Option Witness)) := []

namespace Team

open Dialogue (asks counts ends resume Later)

/-- One asker puts its next problem to the session, or counts. The session is locked for one problem at a time. -/
inductive Step : Team → Team → Prop
  | asks {before after : List Asker} {t : Theory} {request : Request} {problem : ClauseSet}
      {next : Option Witness → Dialogue Reply} {s s' : Session} {log : List (ClauseSet × Except Error (Option Witness))}
      {result : Except Error (Option Witness)} (asked : (t.solveProblem problem).run s = (result, s')) :
    Step ⟨before ++ ⟨t, request, asks problem next⟩ :: after, s, log⟩
      ⟨before ++ ⟨t, request, resume next result⟩ :: after, s', log ++ [(problem, result)]⟩
  | counts {before after : List Asker} {t : Theory} {request : Request} {count : Query Nat} {steady : count.Steady}
      {next : Nat → Dialogue Reply} {s s' : Session} {log : List (ClauseSet × Except Error (Option Witness))}
      {result : Except Error Nat} (counted : count.run s = (result, s')) :
    Step ⟨before ++ ⟨t, request, counts count steady next⟩ :: after, s, log⟩
      ⟨before ++ ⟨t, request, resume next result⟩ :: after, s', log⟩

inductive Move : Team → Team → Prop
  | joins {askers : List Asker} {s : Session} {log : List (ClauseSet × Except Error (Option Witness))} {t : Theory}
      {request : Request} {d : Dialogue Reply} (shares : t.Shares) (held : d.query t.solveProblem = request.query t) :
    Move ⟨askers, s, log⟩ ⟨⟨t, request, d⟩ :: askers, s, log⟩
  | steps {team team' : Team} (step : Step team team') : Move team team'

def Ended (team : Team) : Prop := ∀ asker ∈ team.askers, ∃ result, asker.rest = ends result

variable {team team' : Team}

/-! ### Progress -/

theorem Step.cutExpand (step : Step team team') :
    Relation.CutExpand Later (team'.askers.map Asker.rest : Multiset (Dialogue Reply))
      (team.askers.map Asker.rest) := by
  have replaced (before after : List Asker) {d d' : Dialogue Reply} (t : Theory) (request : Request)
      (later : Later d' d) : Relation.CutExpand Later
        ((before ++ ⟨t, request, d'⟩ :: after).map Asker.rest : Multiset (Dialogue Reply))
        ((before ++ ⟨t, request, d⟩ :: after).map Asker.rest) := by
    rw [List.map_append, List.map_append, List.map_cons, List.map_cons, ← Multiset.coe_add, ← Multiset.coe_add,
      ← Multiset.cons_coe, ← Multiset.cons_coe, ← Multiset.singleton_add, ← Multiset.singleton_add]
    exact (Relation.cutExpand_add_left _).2
      ((Relation.cutExpand_add_right _).2 (Relation.cutExpand_singleton_singleton later))
  cases step with
  | asks _ => exact replaced _ _ _ _ (.asks ..)
  | counts _ => exact replaced _ _ _ _ (.counts ..)

theorem acc_step (team : Team) : Acc (fun later now => Step now later) team := by
  have wf : WellFounded (Relation.CutExpand (@Later Reply)) := WellFounded.cutExpand ⟨Dialogue.acc_later⟩
  exact Subrelation.accessible (fun step => step.cutExpand)
    ((InvImage.wf (fun team : Team => (team.askers.map Asker.rest : Multiset (Dialogue Reply))) wf).apply team)

theorem exists_step (busy : ¬ team.Ended) : ∃ team', Step team team' := by
  obtain ⟨askers, s, log⟩ := team
  obtain ⟨⟨t, request, rest⟩, busy_here⟩ := not_forall.1 busy
  obtain ⟨mem, not_ended⟩ := Classical.not_imp.1 busy_here
  obtain ⟨before, after, rfl⟩ := List.append_of_mem mem
  cases rest with
  | ends result => exact absurd ⟨result, rfl⟩ not_ended
  | asks problem next =>
    rcases asked : (t.solveProblem problem).run s with ⟨result, s'⟩
    exact ⟨_, .asks asked⟩
  | counts count steady next =>
    rcases counted : count.run s with ⟨result, s'⟩
    exact ⟨_, .counts counted⟩

end Team

/-! ### What holds at all times -/

namespace Asker

variable {asker : Asker} {c c' : AnswerCache} {t : Theory} {request : Request}

/-- What holds of an asker where so much is remembered: in any later session its query would come as far at once. -/
structure Sound (asker : Asker) (c : AnswerCache) : Prop where
  shares : asker.theory.Shares
  replays : ∀ s : Session, s.Sound → c.Within s.cache →
    ∃ s' : Session, s'.cache.entries = s.cache.entries ∧
      (asker.request.query asker.theory).run s = (asker.rest.query asker.theory.solveProblem).run s'

theorem sound_join {d : Dialogue Reply} (shares : t.Shares) (held : d.query t.solveProblem = request.query t)
    (c : AnswerCache) : Sound ⟨t, request, d⟩ c := by
  refine ⟨shares, fun s _ _ => ⟨s, rfl, ?_⟩⟩
  dsimp only
  rw [held]

theorem Sound.mono (sound : asker.Sound c) (within : c.Within c') : asker.Sound c' :=
  ⟨sound.shares, fun s sound_session within' => sound.replays s sound_session (within.trans within')⟩

theorem Sound.asks {problem : ClauseSet} {next : Option Witness → Dialogue Reply} {s s' : Session}
    {result : Except Error (Option Witness)} (sound : Sound ⟨t, request, .asks problem next⟩ s.cache)
    (sound_session : s.Sound) (asked : (t.solveProblem problem).run s = (result, s')) :
    Sound ⟨t, request, .resume next result⟩ s'.cache := by
  have shares : t.Shares := sound.shares
  refine ⟨shares, fun s₁ sound₁ within => ?_⟩
  obtain ⟨s₂, same, run⟩ := sound.replays s₁ sound₁ ((shares.put asked).within.trans within)
  have within₂ : s'.cache.Within s₂.cache := by
    unfold AnswerCache.Within AnswerCache.find? at within ⊢
    rwa [same]
  obtain ⟨s₃, asked_again, kept⟩ := shares.again asked sound_session (sound₁.of_entries same) within₂
  exact ⟨s₃, kept.trans same, run.trans (Dialogue.run_asks asked_again)⟩

theorem Sound.counts {count : Query Nat} {steady : count.Steady} {next : Nat → Dialogue Reply} {s s' : Session}
    {result : Except Error Nat} (sound : Sound ⟨t, request, .counts count steady next⟩ c)
    (counted : count.run s = (result, s')) : Sound ⟨t, request, .resume next result⟩ c := by
  refine ⟨sound.shares, fun s₁ sound₁ within => ?_⟩
  obtain ⟨s₂, same, run⟩ := sound.replays s₁ sound₁ within
  obtain ⟨s₃, counted_again, kept⟩ := steady.again counted s₂
  exact ⟨s₃, (congrArg AnswerCache.entries kept).trans same, run.trans (Dialogue.run_counts counted_again)⟩

/-- What a result should be: the verdict of the theory alone, with models that hold. A theory that was made shares, if
it has anything from the one that was asked. -/
structure Answered (asker : Asker) (result : Except Error Reply) : Prop where
  alone : ∀ watches : Nat → Stopwatch,
    result.map Reply.verdict = ((asker.request.query asker.theory.alone).run { watches }).1.map Reply.verdict
  modelled : ∀ reply, result = .ok reply → asker.request.Modelled asker.theory reply
  shares : ∀ u, result = .ok (.theory u) → u.cached = true → u.Shares

theorem Answered.model {answer : Option Witness} (answered : asker.Answered (.ok (.model answer)))
    (watches : Nat → Stopwatch) : ∃ answer',
      ((asker.request.query asker.theory.alone).run { watches }).1 = .ok (.model answer') ∧
        answer'.isSome = answer.isSome := by
  have same := answered.alone watches
  revert same
  generalize ((asker.request.query asker.theory.alone).run { watches }).1 = result
  intro same
  cases result with
  | error e => cases same
  | ok reply =>
    cases reply with
    | model answer' =>
      refine ⟨answer', rfl, ?_⟩
      exact (Verdict.consistent.inj (Except.ok.inj same)).symm
    | _ => cases same

theorem Sound.answered {s : Session} {result : Except Error Reply} (sound : asker.Sound s.cache)
    (sound_session : s.Sound) (ended : asker.rest = .ends result) : asker.Answered result := by
  obtain ⟨s', -, run⟩ := sound.replays s sound_session (.refl _)
  rw [ended, Dialogue.run_ends] at run
  have same (watches : Nat → Stopwatch) := (asker.request.query_beside sound.shares s { watches } sound_session
    (Session.sound_new watches)).results
  rw [run] at same
  refine ⟨fun watches => ?_, ?_, ?_⟩
  · rcases same watches with ⟨reply, reply₀, rfl, found, same⟩ | ⟨e, rfl, failed⟩
    · rw [found]
      exact congrArg Except.ok same.verdict
    · rw [failed]
  · rintro reply rfl
    exact Request.modelled_of_run sound.shares sound_session.truthful run
  · rintro u rfl
    rcases same fun _ _ => 0 with ⟨_, _, ⟨⟩, -, same⟩ | ⟨_, ⟨⟩, -⟩
    exact same.shares u rfl

end Asker

namespace Team

variable {team team' : Team}

structure Sound (team : Team) : Prop where
  session : team.session.Sound
  counted : team.session.cache.Counted team.log.length
  settled : ∀ e ∈ team.log, ∀ answer, e.2 = .ok answer → Settles e.1.toList [] answer
  askers : ∀ asker ∈ team.askers, asker.Sound team.session.cache

theorem sound_new (watches : Nat → Stopwatch) : Sound { session := { watches } } :=
  ⟨Session.sound_new watches, AnswerCache.counted_new, fun _ h => absurd h List.not_mem_nil,
    fun _ h => absurd h List.not_mem_nil⟩

theorem Step.sound (step : Step team team') (sound : team.Sound) : team'.Sound := by
  obtain ⟨session, counted, settled, askers⟩ := sound
  cases step with
  | @asks before after t request problem next s s' log result asked =>
    rw [List.forall_mem_append, List.forall_mem_cons] at askers
    obtain ⟨others_before, here, others_after⟩ := askers
    have shares : t.Shares := here.shares
    have put := shares.put asked
    obtain ⟨left, settles⟩ := shares.settles asked session
    refine ⟨left, ?_, ?_, ?_⟩
    · rw [List.length_append, List.length_singleton]
      exact put.counted counted
    · rw [List.forall_mem_append, List.forall_mem_singleton]
      exact ⟨settled, settles⟩
    · rw [List.forall_mem_append, List.forall_mem_cons]
      exact ⟨fun other mem => (others_before other mem).mono put.within, here.asks session asked,
        fun other mem => (others_after other mem).mono put.within⟩
  | @counts before after t request count steady next s s' log result counted' =>
    rw [List.forall_mem_append, List.forall_mem_cons] at askers
    obtain ⟨others_before, here, others_after⟩ := askers
    have kept : s'.cache = s.cache := steady.cache_eq counted'
    refine ⟨session.of_entries (congrArg AnswerCache.entries kept), ?_, settled, ?_⟩
    · dsimp only
      rw [kept]
      exact counted
    · dsimp only
      rw [kept, List.forall_mem_append, List.forall_mem_cons]
      exact ⟨others_before, here.counts counted', others_after⟩

theorem Move.sound (move : Move team team') (sound : team.Sound) : team'.Sound := by
  cases move with
  | joins shares held =>
    exact ⟨sound.session, sound.counted, sound.settled,
      List.forall_mem_cons.2 ⟨Asker.sound_join shares held _, sound.askers⟩⟩
  | steps step => exact step.sound sound

theorem sound_of_reachable (reached : Relation.ReflTransGen Move team team') (sound : team.Sound) : team'.Sound := by
  induction reached with
  | refl => exact sound
  | tail _ move ih => exact move.sound ih

end Team

/-- Sharing what is remembered cannot be told from not sharing it. Whoever asks in whatever order, problem by problem
and with whatever settings, what is remembered is right and each query comes to the verdict of its theory alone, with
models that hold. -/
theorem sharing_transparent (watches : Nat → Stopwatch) (team : Team)
    (reached : Relation.ReflTransGen Team.Move { session := { watches } } team) :
    (∀ e ∈ team.session.cache.entries, Settles e.1.toList [] e.2) ∧
    (team.session.cache.entries.map Prod.fst).Nodup ∧
    team.session.cache.hits + team.session.cache.misses = team.log.length ∧
    team.session.cache.size ≤ team.session.cache.misses ∧
    (∀ problem answer, (problem, .ok answer) ∈ team.log → Settles problem.toList [] answer) ∧
    (∀ asker ∈ team.askers, ∀ result, asker.rest = .ends result → asker.Answered result) ∧
    Acc (fun later now => Team.Step now later) team ∧
    (¬ team.Ended → ∃ team', Team.Step team team') ∧
    ∀ t : Theory, t.Shares → (∀ n, (t.above n).Shares ∧ (t.strictlyAbove n).Shares) ∧
      ∀ request : Request, ∃ d : Dialogue Reply,
        Team.Move team ⟨⟨t, request, d⟩ :: team.askers, team.session, team.log⟩ := by
  obtain ⟨session, counted, settled, askers⟩ := Team.sound_of_reachable reached (Team.sound_new watches)
  refine ⟨session.truthful, counted.distinct, counted.total, counted.few, fun problem answer mem => ?_,
    fun asker mem result ended => (askers asker mem).answered session ended, Team.acc_step team, Team.exists_step,
    fun t shares => ⟨fun n => ⟨shares.withLevels _, shares.withLevels _⟩, fun request => ?_⟩⟩
  · exact settled _ mem answer rfl
  · obtain ⟨d, held, -⟩ := request.query_stepwise t
    exact ⟨d, .joins shares held⟩

theorem sharing_transparent_penguins :
    let t := Theory.penguins.withCache
    let t' := t.withSettings { phaseSaving := ⟨"phase_saving", false, true, false⟩ }
    let request := Request.solveAt (.ofLevel 1 2) (.singleton ⟨"penguin", [], true⟩)
    let counted := Request.collapseCounted 3 (Counter.enumeration {})
      (Counter.enumeration_steady Settings.probable_default rfl)
    ∃ team witness, Relation.ReflTransGen Team.Move { session := { watches := fun _ _ => 0 } } team ∧
      team.askers = [⟨t', request, .ends (.ok (.model (some witness)))⟩,
        ⟨t, request, .ends (.ok (.model (some witness)))⟩] ∧
      team.session.cache.hits = 1 ∧ team.session.cache.misses = 1 ∧ team.session.cache.size ≤ 1 ∧
      t'.ModelAt (.ofLevel 1 2) (.singleton ⟨"penguin", [], true⟩) witness.world ∧
      (∀ watches, ∃ witness', ((request.query t'.alone).run { watches }).1 = .ok (.model (some witness'))) ∧
      ∃ d, Team.Move team ⟨⟨t, counted, d⟩ :: team.askers, team.session, team.log⟩ := by
  intro t t' request counted
  let penguin : Evidence := .singleton ⟨"penguin", [], true⟩
  let problem := t.cut (.ofLevel 1 2) ∪ Theory.units penguin.toList
  let witness : Witness := .ofList [⟨"bird", [], true⟩, ⟨"penguin", [], true⟩]
  let asking : Dialogue Reply := .asks problem fun answer => .ends (.ok (.model answer))
  have shares : t.Shares := ⟨rfl, Theory.regular_penguins.withCache, Settings.probable_default, rfl⟩
  have shares' : t'.Shares :=
    shares.withSettings ((Settings.probable_iff (.update (u := { phaseSaving := some false }) .default rfl)).2
      fun _ => by decide +kernel) rfl
  have held : asking.query t.solveProblem = request.query t :=
    @Request.query_solveAt t (by decide +kernel) (.ofLevel 1 2) penguin
  have held' : asking.query t'.solveProblem = request.query t' :=
    @Request.query_solveAt t' (by decide +kernel) (.ofLevel 1 2) penguin
  have first : ((t.solveProblem problem).run { watches := fun _ _ => 0 }).1 = .ok (some witness) := by
    decide +kernel
  have second : ((t'.solveProblem problem).run ((t.solveProblem problem).run { watches := fun _ _ => 0 }).2).1 =
      .ok (some witness) := by decide +kernel
  have hits : ((t'.solveProblem problem).run
      ((t.solveProblem problem).run { watches := fun _ _ => 0 }).2).2.cache.hits = 1 := by decide +kernel
  rcases run : (t.solveProblem problem).run { watches := fun _ _ => 0 } with ⟨result, s⟩
  rw [run] at first second hits
  obtain rfl : result = .ok (some witness) := first
  rcases run' : (t'.solveProblem problem).run s with ⟨result', s'⟩
  rw [run'] at second hits
  obtain rfl : result' = .ok (some witness) := second
  let answered : Asker := ⟨t, request, .ends (.ok (.model (some witness)))⟩
  let answered' : Asker := ⟨t', request, .ends (.ok (.model (some witness)))⟩
  have reached : Relation.ReflTransGen Team.Move { session := { watches := fun _ _ => 0 } }
      ⟨[answered', answered], s', [(problem, .ok (some witness)), (problem, .ok (some witness))]⟩ := by
    have first_joins : Team.Move { session := { watches := fun _ _ => 0 } }
        ⟨[⟨t, request, asking⟩], { watches := fun _ _ => 0 }, []⟩ := .joins shares held
    have joined := (Relation.ReflTransGen.single first_joins).tail (.joins shares' held')
    have asked := joined.tail (.steps (@Team.Step.asks [⟨t', request, asking⟩] [] t request problem _ _ _ _ _ run))
    exact asked.tail (.steps (@Team.Step.asks [] [answered] t' request problem _ _ _ _ _ run'))
  obtain ⟨-, -, total, few, -, replies, -, -, joins⟩ := sharing_transparent _ _ reached
  have right : answered'.Answered (.ok (.model (some witness))) := replies answered' List.mem_cons_self _ rfl
  have hits : s'.cache.hits = 1 := hits
  have misses : s'.cache.misses = 1 := by
    have total : s'.cache.hits + s'.cache.misses = 2 := total
    omega
  refine ⟨_, witness, reached, rfl, hits, misses, misses ▸ few, right.modelled _ rfl, fun watches => ?_,
    (joins t shares).2 counted⟩
  obtain ⟨answer, alone, found⟩ := right.model watches
  obtain ⟨witness', rfl⟩ := Option.isSome_iff_exists.1 found
  exact ⟨witness', alone⟩

/-- With a lean that is no number a theory has an answer that others remember, and none alone. -/
theorem sharing_undecided :
    let t := Theory.penguins.withCache
    let t' := t.withSettings .undecided
    let bird : Evidence := .singleton ⟨"bird", [], true⟩
    Settings.undecided.Reached ∧ t'.settings.solveLimit? = none ∧ ∃ witness s,
      (t.solveAt (.ofLevel 1 2) bird).run {} = (.ok (some witness), s) ∧
      ((t'.solveAt (.ofLevel 1 2) bird).run s).1 = .ok (some witness) ∧
      ((t'.alone.solveAt (.ofLevel 1 2) bird).run {}).1 = .error (.fault .improbable) := by
  refine ⟨Settings.reached_undecided, rfl, .singleton ⟨"bird", [], true⟩, _, Prod.ext ?_ rfl, ?_, ?_⟩
  · decide +kernel
  · decide +kernel
  · decide +kernel

end Defeasible
