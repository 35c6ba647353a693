import Defeasible.Proofs.Closure.Ranking
import Defeasible.Proofs.Ground.TimeLimit
import Defeasible.Proofs.Theory.Grounded
import Defeasible.Theory.Redundancy

/-! Queries with a limit on the time of each solve. A query that is not cut short answers as it would without a limit,
though the models that it finds on the way may differ, as other models may be remembered. -/

namespace Defeasible

structure Session.Sound (s : Session) : Prop where
  truthful : s.Truthful
  grounded : s.Grounded

theorem Session.Sound.of_entries {s s' : Session} (sound : s.Sound) (same : s'.cache.entries = s.cache.entries) :
    s'.Sound := by
  exact ⟨fun e he => sound.truthful e (same ▸ he), fun e he => sound.grounded e (same ▸ he)⟩

theorem Session.sound_new (watches : Nat → Stopwatch) : ({ watches } : Session).Sound :=
  ⟨truthful_new watches, grounded_new watches⟩

inductive AnswerCache.Put (c : AnswerCache) (problem : ClauseSet) : Except Error (Option Witness) → AnswerCache → Prop
  | known {answer : Option Witness} (known : c.find? problem = some answer) : Put c problem (.ok answer) c.hit
  | solved {answer : Option Witness} (unknown : c.find? problem = none) :
    Put c problem (.ok answer) (c.miss.store problem answer)
  | failed {e : Error} (unknown : c.find? problem = none) : Put c problem (.error e) c.miss

namespace AnswerCache.Put

variable {c c' : AnswerCache} {problem : ClauseSet} {answer : Option Witness} {e : Error}

theorem entries_of_error (put : c.Put problem (.error e) c') : c'.entries = c.entries := by
  cases put with
  | failed => rfl

theorem unknown_of_error (put : c.Put problem (.error e) c') : c'.find? problem = none := by
  cases put with
  | failed unknown => exact unknown

theorem mem_entries (put : c.Put problem (.ok answer) c') :
    ∀ entry ∈ c'.entries, entry ∈ c.entries ∨ entry = (problem, answer) := by
  cases put with
  | known => exact fun entry mem => .inl mem
  | solved => exact fun entry mem => (List.mem_cons.1 mem).symm

end AnswerCache.Put

namespace Query

/-- A run with a limit beside one without: it was cut short, or they have related results or the same error. -/
inductive Beside {α β : Type} (R : α → β → Prop) (C : Error → Prop) :
    Except Error α × Session → Except Error β × Session → Prop
  | cut {e : Error} {s : Session} {r₀ : Except Error β × Session} (sound : s.Sound) (cut : C e) :
    Beside R C (.error e, s) r₀
  | ok {a : α} {b : β} {s s₀ : Session} (sound : s.Sound) (sound₀ : s₀.Sound) (related : R a b) :
    Beside R C (.ok a, s) (.ok b, s₀)
  | error {e : Error} {s s₀ : Session} (sound : s.Sound) (sound₀ : s₀.Sound) :
    Beside R C (.error e, s) (.error e, s₀)

theorem Beside.imp {α β : Type} {R R' : α → β → Prop} {C C' : Error → Prop} {r : Except Error α × Session}
    {r₀ : Except Error β × Session} (beside : Beside R C r r₀) (results : ∀ a b, R a b → R' a b)
    (errors : ∀ e, C e → C' e) : Beside R' C' r r₀ := by
  cases beside with
  | cut sound cut => exact .cut sound (errors _ cut)
  | ok sound sound₀ related => exact .ok sound sound₀ (results _ _ related)
  | error sound sound₀ => exact .error sound sound₀

/-- Whether a query with a limit runs beside one without, in whatever sessions the two are. -/
def Tracks {α β : Type} (q : Query α) (q₀ : Query β) (R : α → β → Prop) (C : Error → Prop) : Prop :=
  ∀ s s₀ : Session, s.Sound → s₀.Sound → Beside R C (q.run s) (q₀.run s₀)

variable {α β γ δ : Type} {q : Query α} {q₀ : Query β} {f : α → Query γ} {f₀ : β → Query δ} {R : α → β → Prop}
  {R' : γ → δ → Prop} {C : Error → Prop} {settings : Settings}

namespace Tracks

protected theorem pure {a : α} {b : β} (related : R a b) : (pure a : Query α).Tracks (pure b : Query β) R C :=
  fun _ _ sound sound₀ => .ok sound sound₀ related

protected theorem throw (e : Error) : (throw e : Query α).Tracks (throw e : Query β) R C :=
  fun _ _ sound sound₀ => .error sound sound₀

protected theorem bind (tracks : q.Tracks q₀ R C) (rest : ∀ a b, R a b → (f a).Tracks (f₀ b) R' C) :
    (q >>= f).Tracks (q₀ >>= f₀) R' C := by
  intro s s₀ sound sound₀
  have first := tracks s s₀ sound sound₀
  rw [run_bind, run_bind]
  revert first
  rcases q.run s with ⟨r, t⟩
  rcases q₀.run s₀ with ⟨r₀, t₀⟩
  intro first
  cases first with
  | cut sound cut => exact .cut sound cut
  | ok sound sound₀ related => exact rest _ _ related t t₀ sound sound₀
  | error sound sound₀ => exact .error sound sound₀

theorem imp {R'' : α → β → Prop} (tracks : q.Tracks q₀ R C) (imp : ∀ a b, R a b → R'' a b) : q.Tracks q₀ R'' C :=
  fun s s₀ sound sound₀ => (tracks s s₀ sound sound₀).imp imp fun _ => id

theorem imp_error {C' : Error → Prop} (tracks : q.Tracks q₀ R C) (imp : ∀ e, C e → C' e) : q.Tracks q₀ R C' :=
  fun s s₀ sound sound₀ => (tracks s s₀ sound sound₀).imp (fun _ _ => id) imp

variable {as : List α}

theorem mapM {f f₀ : α → Query γ} (each : ∀ a ∈ as, (f a).Tracks (f₀ a) Eq C) :
    (as.mapM f).Tracks (as.mapM f₀) Eq C := by
  induction as with
  | nil => exact .pure rfl
  | cons a as ih =>
    rw [List.mapM_cons, List.mapM_cons]
    refine (each a List.mem_cons_self).bind fun c d same => ?_
    refine (ih fun b hb => each b (List.mem_cons_of_mem a hb)).bind fun cs ds same' => .pure ?_
    rw [same, same']

theorem foldlM {f f₀ : γ → α → Query γ} (each : ∀ c, ∀ a ∈ as, (f c a).Tracks (f₀ c a) Eq C) (c : γ) :
    (as.foldlM f c).Tracks (as.foldlM f₀ c) Eq C := by
  induction as generalizing c with
  | nil => exact .pure rfl
  | cons a as ih =>
    rw [List.foldlM_cons, List.foldlM_cons]
    refine (each c a List.mem_cons_self).bind fun d _ same => ?_
    exact same ▸ ih (fun c b hb => each c b (List.mem_cons_of_mem a hb)) d

end Tracks

/-! ### Problems -/

theorem put_remembered {problem : ClauseSet} {s s' : Session} {result : Except Error (Option Witness)}
    (run : (remembered problem (solveFresh settings problem)).run s = (result, s')) :
    s.cache.Put problem result s'.cache := by
  unfold Query.run remembered at run
  cases known : s.cache.find? problem with
  | some answer =>
    rw [known] at run
    cases run
    exact .known known
  | none =>
    rw [known] at run
    dsimp only at run
    have kept := cache_solveFresh settings problem { s with cache := s.cache.miss }
    unfold Query.run at kept
    rcases computed : solveFresh settings problem { s with cache := s.cache.miss } with ⟨_ | answer, s₁⟩
    · rw [computed] at run kept
      cases run
      rw [kept]
      exact .failed known
    · rw [computed] at run kept
      cases run
      dsimp only
      rw [kept]
      exact .solved known

theorem entries_remembered_of_error {problem : ClauseSet} {s s' : Session} {e : Error}
    (run : (remembered problem (solveFresh settings problem)).run s = (.error e, s')) :
    s'.cache.entries = s.cache.entries :=
  (put_remembered run).entries_of_error

inductive Outcome (settings : Settings) (problem : ClauseSet) : Except Error (Option Witness) × Session → Prop
  | answer {answer : Option Witness} {s : Session} (sound : s.Sound) (ground : ∀ c ∈ problem, c.isGround = true)
      (settles : Settles problem.toList [] answer) : Outcome settings problem (.ok answer, s)
  | cut {e : Error} {s : Session} (sound : s.Sound) (ground : ∀ c ∈ problem, c.isGround = true)
      (cut : settings.CutsShort e) : Outcome settings problem (.error e, s)
  | unmade {e : EngineError} {s : Session} (sound : s.Sound) (not_ground : ¬ ∀ c ∈ problem, c.isGround = true)
      (unmade : Solver.new problem.toList [] settings = .error e) : Outcome settings problem (.error (.engine e), s)

variable {problem : ClauseSet} {r r₀ : Except Error (Option Witness) × Session}

theorem Outcome.beside (outcome : Outcome settings problem r) (outcome₀ : Outcome settings.untimed problem r₀) :
    Beside (fun a b => a.isSome = b.isSome) settings.CutsShort r r₀ := by
  cases outcome with
  | cut sound _ cut => exact .cut sound cut
  | answer sound ground settles =>
    cases outcome₀ with
    | answer sound₀ _ settles₀ =>
      exact .ok sound sound₀ (Bool.eq_iff_iff.2 (settles.isSome_iff.trans settles₀.isSome_iff.symm))
    | cut _ _ cut => exact absurd settings.solveLimit?_untimed cut.hinders.limited
    | unmade _ not_ground _ => exact absurd ground not_ground
  | unmade sound not_ground unmade =>
    cases outcome₀ with
    | answer _ ground _ => exact absurd ground not_ground
    | cut _ ground _ => exact absurd ground not_ground
    | unmade sound₀ _ unmade₀ =>
      -- The error is that of the clauses.
      have same := Solver.new_withSettings problem.toList [] settings settings.untimed
      rw [unmade, unmade₀] at same
      cases same
      exact .error sound sound₀

theorem solveFresh_outcome (probable : settings.Probable) {s : Session} (sound : s.Sound) :
    Outcome settings problem ((solveFresh settings problem).run s) := by
  have kept := cache_solveFresh settings problem s
  have sound' (s' : Session) (same : s'.cache = s.cache) : s'.Sound := sound.of_entries (congrArg _ same)
  by_cases ground : ∀ c ∈ problem, c.isGround = true
  · rcases solveFresh_within probable ground s sound.truthful with ⟨_, _, run, -, settles⟩ | ⟨_, _, run, -, cut⟩
    · rw [run] at kept ⊢
      exact .answer (sound' _ kept) ground settles
    · rw [run] at kept ⊢
      exact .cut (sound' _ kept) ground cut
  · cases unmade : Solver.new problem.toList [] settings with
    | ok solver => exact absurd (Solver.of_new unmade).1 ground
    | error e =>
      unfold solveFresh
      rw [unmade]
      exact .unmade sound ground unmade

theorem remembered_outcome (probable : settings.Probable) {s : Session} (sound : s.Sound) :
    Outcome settings problem ((remembered problem (solveFresh settings problem)).run s) := by
  have missed : ({ s with cache := s.cache.miss } : Session).Sound := ⟨sound.truthful, sound.grounded⟩
  have outcome : Outcome settings problem (solveFresh settings problem { s with cache := s.cache.miss }) :=
    solveFresh_outcome probable missed
  unfold Query.run remembered
  cases known : s.cache.find? problem with
  | some answer =>
    obtain ⟨⟨found, _⟩, found_eq, rfl⟩ := Option.map_eq_some_iff.1 known
    obtain rfl : found = problem := by simpa using List.find?_some found_eq
    have mem := List.mem_of_find?_eq_some found_eq
    exact .answer ⟨sound.truthful, sound.grounded⟩ (sound.grounded _ mem) (sound.truthful _ mem)
  | none =>
    dsimp only
    revert outcome
    rcases solveFresh settings problem { s with cache := s.cache.miss } with ⟨r, s'⟩
    intro outcome
    cases outcome with
    | answer sound ground settles =>
      exact .answer ⟨List.forall_mem_cons.2 ⟨settles, sound.truthful⟩,
        List.forall_mem_cons.2 ⟨ground, sound.grounded⟩⟩ ground settles
    | cut sound ground cut => exact .cut sound ground cut
    | unmade sound not_ground unmade => exact .unmade sound not_ground unmade

end Query

namespace Theory

variable {t : Theory} {evidence : Evidence} {c : Clause} {settings : Settings} {cached : Bool}

def untimed (t : Theory) : Theory := t.withSettings t.settings.untimed

def unlimited (t : Theory) (cached : Bool) : Theory := { t with settings := t.settings.untimed, cached }

def SameLevels (t : Theory) (cached : Bool) (u u₀ : Theory) : Prop :=
  ∃ levels, u = t.withLevels levels ∧ u₀ = (t.unlimited cached).withLevels levels

theorem SameLevels.eq_withSettings {u u₀ : Theory} (same : t.SameLevels t.cached u u₀) :
    u₀ = u.withSettings t.settings.untimed := by
  obtain ⟨levels, rfl, rfl⟩ := same
  rfl

theorem eq_level_cases {answer answer₀ : Option (Witness × Necessity)}
    (same : answer.map Prod.snd = answer₀.map Prod.snd) :
    (answer = none ∧ answer₀ = none) ∨
      ∃ witness witness₀ n, answer = some (witness, n) ∧ answer₀ = some (witness₀, n) := by
  cases answer with
  | none =>
    cases answer₀ with
    | none => exact .inl ⟨rfl, rfl⟩
    | some _ => cases same
  | some found =>
    cases answer₀ with
    | none => cases same
    | some found₀ =>
      obtain same : found.2 = found₀.2 := Option.some.inj same
      exact .inr ⟨found.1, found₀.1, found.2, rfl, by rw [same]⟩

theorem entries_solveProblem_of_error {problem : ClauseSet} {s s' : Session} {e : Error}
    (run : (t.solveProblem problem).run s = (.error e, s')) : s'.cache.entries = s.cache.entries := by
  unfold solveProblem at run
  split at run
  · exact Query.entries_remembered_of_error run
  · have kept := Query.cache_solveFresh t.settings problem s
    rw [run] at kept
    exact congrArg AnswerCache.entries kept

section Queries

variable (probable : t.settings.Probable)

theorem requireGround_tracks : t.requireGround.Tracks (t.unlimited cached).requireGround Eq t.settings.CutsShort := by
  change t.requireGround.Tracks t.requireGround _ _
  unfold requireGround
  split
  · exact .pure rfl
  · exact .throw _

include probable

theorem solveProblem_outcome {problem : ClauseSet} {s : Session} (sound : s.Sound) :
    Query.Outcome t.settings problem ((t.solveProblem problem).run s) := by
  unfold solveProblem
  split
  · exact Query.remembered_outcome probable sound
  · exact Query.solveFresh_outcome probable sound

theorem solveProblem_tracks (problem : ClauseSet) :
    (t.solveProblem problem).Tracks ((t.unlimited cached).solveProblem problem) (fun a b => a.isSome = b.isSome)
      t.settings.CutsShort := by
  intro s s₀ sound sound₀
  have outcome₀ := @solveProblem_outcome (t.unlimited cached) probable.untimed problem s₀ sound₀
  exact (solveProblem_outcome probable sound).beside outcome₀

theorem isNone_tracks (problem : ClauseSet) :
    (Option.isNone <$> t.solveProblem problem).Tracks (Option.isNone <$> (t.unlimited cached).solveProblem problem) Eq
      t.settings.CutsShort := by
  rw [← bind_pure_comp, ← bind_pure_comp]
  refine (solveProblem_tracks probable problem).bind fun answer answer₀ same => .pure ?_
  rw [← Option.not_isSome, ← Option.not_isSome, same]

theorem solveAt_tracks (n : Necessity) (evidence : Evidence) :
    (t.solveAt n evidence).Tracks ((t.unlimited cached).solveAt n evidence) (fun a b => a.isSome = b.isSome)
      t.settings.CutsShort :=
  requireGround_tracks.bind fun _ _ _ => solveProblem_tracks probable _

theorem searchLevel_tracks {weights : Array Necessity} {fuel low high : Nat}
    {best best₀ : Option (Witness × Necessity)} (same : best.map Prod.snd = best₀.map Prod.snd) :
    (t.searchLevel evidence weights fuel low high best).Tracks
      ((t.unlimited cached).searchLevel evidence weights fuel low high best₀)
      (fun a b => a.map Prod.snd = b.map Prod.snd) t.settings.CutsShort := by
  induction fuel generalizing low high best best₀ with
  | zero => exact .pure same
  | succ fuel ih =>
    rw [searchLevel, searchLevel]
    split
    · refine (solveAt_tracks probable _ evidence).bind fun answer answer₀ found => ?_
      cases answer with
      | none =>
        cases answer₀ with
        | none => exact ih same
        | some _ => cases found
      | some _ =>
        cases answer₀ with
        | none => cases found
        | some _ => exact ih rfl
    · exact .pure same

theorem solve_tracks (evidence : Evidence) :
    (t.solve evidence).Tracks ((t.unlimited cached).solve evidence) (fun a b => a.map Prod.snd = b.map Prod.snd)
      t.settings.CutsShort := by
  change (t.solve evidence).Tracks (if t.weights.toArray.isEmpty then _ else _) _ _
  unfold solve
  dsimp only
  split
  · refine (solveAt_tracks probable .certain evidence).bind fun answer answer₀ found => .pure ?_
    cases answer <;> cases answer₀ <;> first | rfl | cases found
  · exact searchLevel_tracks probable rfl

theorem implies_tracks (evidence : Evidence) (c : Clause) :
    (t.implies evidence c).Tracks ((t.unlimited cached).implies evidence c) Eq t.settings.CutsShort := by
  unfold implies
  split
  · exact .pure rfl
  · refine requireGround_tracks.bind fun _ _ _ => ?_
    refine (solve_tracks probable evidence).bind fun answer answer₀ same => ?_
    rcases eq_level_cases same with ⟨rfl, rfl⟩ | ⟨witness, witness₀, n, rfl, rfl⟩
    · exact .pure rfl
    · exact isNone_tracks probable _

theorem follows_tracks (c : Clause) (clauses strictCut : ClauseSet) :
    (t.follows c clauses strictCut).Tracks ((t.unlimited cached).follows c clauses strictCut) Eq t.settings.CutsShort :=
  isNone_tracks probable _

theorem keepUnimplied_tracks (strictCut : ClauseSet) (cs : List Clause) (level : ClauseSet) :
    (t.keepUnimplied strictCut cs level).Tracks ((t.unlimited cached).keepUnimplied strictCut cs level) Eq
      t.settings.CutsShort := by
  induction cs generalizing level with
  | nil => exact .pure rfl
  | cons c cs ih =>
    rw [keepUnimplied, keepUnimplied]
    refine (follows_tracks probable c (level.erase c) strictCut).bind fun implied _ same => same ▸ ?_
    split
    · exact ih _
    · exact (ih level).bind fun kept _ same => .pure (congrArg (c :: ·) same)

theorem withoutImplied_keeps :
    t.withoutImplied.Tracks (t.unlimited cached).withoutImplied (t.SameLevels cached) t.settings.CutsShort := by
  refine Query.Tracks.bind (.mapM fun l _ => ?_) fun levels levels₀ same => .pure ?_
  · exact (keepUnimplied_tracks probable _ _ _).bind fun _ _ same => .pure (by rw [same])
  · exact ⟨levels, rfl, same ▸ rfl⟩

theorem withoutImplied_tracks :
    t.withoutImplied.Tracks t.untimed.withoutImplied (fun u u₀ => u₀ = u.withSettings t.settings.untimed)
      t.settings.CutsShort :=
  (withoutImplied_keeps probable).imp fun _ _ => SameLevels.eq_withSettings

theorem shorter?_tracks (strictCut level : ClauseSet) (c : Clause) (ls : List Literal) :
    (t.shorter? strictCut level c ls).Tracks ((t.unlimited cached).shorter? strictCut level c ls) Eq
      t.settings.CutsShort := by
  induction ls with
  | nil => exact .pure rfl
  | cons l ls ih =>
    rw [shorter?, shorter?]
    refine (follows_tracks probable (c.without l) level strictCut).bind fun implied _ same => same ▸ ?_
    split
    · exact .pure rfl
    · exact ih

theorem shorten_tracks (strictCut : ClauseSet) (fuel : Nat) (c : Clause) (level : ClauseSet) :
    (t.shorten strictCut fuel c level).Tracks ((t.unlimited cached).shorten strictCut fuel c level) Eq
      t.settings.CutsShort := by
  induction fuel generalizing c level with
  | zero => exact .pure rfl
  | succ fuel ih =>
    rw [shorten, shorten]
    split
    · exact .pure rfl
    · refine (shorter?_tracks probable strictCut level c c.toList).bind fun found _ same => same ▸ ?_
      cases found with
      | none => exact .pure rfl
      | some shorter => exact ih shorter _

theorem simplifyBySat_keeps :
    t.simplifyBySat.Tracks (t.unlimited cached).simplifyBySat (t.SameLevels cached) t.settings.CutsShort := by
  refine Query.Tracks.bind (.mapM fun l _ => ?_) fun levels levels₀ same => .pure ?_
  · refine Query.Tracks.bind (.foldlM (fun level c _ => ?_) l.clauses) fun _ _ same => .pure (by rw [same])
    exact shorten_tracks probable _ _ c level
  · exact ⟨levels, rfl, same ▸ rfl⟩

theorem simplifyBySat_tracks :
    t.simplifyBySat.Tracks t.untimed.simplifyBySat (fun u u₀ => u₀ = u.withSettings t.settings.untimed)
      t.settings.CutsShort :=
  (simplifyBySat_keeps probable).imp fun _ _ => SameLevels.eq_withSettings

end Queries

end Theory

/-! ### Rankings -/

section Ranking

variable {settings : Settings}

theorem keeps_tolerated (solver : Solver) (rs : List DefaultRule) : (tolerated solver rs).Keeps := by
  induction rs generalizing solver with
  | nil => exact Query.keeps_pure _
  | cons r rs ih =>
    refine Query.keeps_nextWatch.bind fun watch => (Query.keeps_ofExcept _ _).bind fun witness => ?_
    exact (ih _).bind fun others => Query.keeps_pure _

theorem keeps_rankUpTo (settings : Settings) (fuel : Nat) (rules : OrdSet DefaultRule) :
    (rankUpTo settings fuel rules).Keeps := by
  induction fuel generalizing rules with
  | zero => exact Query.keeps_pure _
  | succ fuel ih =>
    rw [rankUpTo]
    split
    · exact Query.keeps_pure _
    · refine (Query.keeps_ofExcept _ _).bind fun solver => (keeps_tolerated _ _).bind fun found => ?_
      dsimp only
      split
      · exact Query.keeps_pure _
      · exact (ih _).bind fun _ => Query.keeps_pure _

theorem ranking_tracks (probable : settings.Probable) (rules : OrdSet DefaultRule) :
    (ranking settings rules).Tracks (ranking settings.untimed rules) Eq settings.CutsShort := by
  by_cases ground : ∀ r ∈ rules, r.Ground
  · intro s s₀ sound sound₀
    have left (settings : Settings) (s : Session) (sound : s.Sound) : ((ranking settings rules).run s).2.Sound :=
      sound.of_entries (congrArg AnswerCache.entries (keeps_rankUpTo settings rules.size rules s))
    have kept := left settings s sound
    have kept₀ := left settings.untimed s₀ sound₀
    obtain ⟨ranks₀, _, run₀, -, found₀⟩ :=
      ((ranking_meets probable.untimed ground).unhindered settings.solveLimit?_untimed).result sound₀.truthful
    rw [run₀] at kept₀ ⊢
    rcases ranking_within probable ground s sound.truthful with ⟨ranks, _, run, -, found⟩ | ⟨e, _, run, -, cut⟩
    · rw [run] at kept ⊢
      exact .ok kept kept₀ (found.unique found₀)
    · rw [run] at kept ⊢
      exact .cut kept cut
  · obtain ⟨e, failed⟩ := ranking_eq_throw ground
    rw [failed, failed]
    exact .throw e

end Ranking

end Defeasible
