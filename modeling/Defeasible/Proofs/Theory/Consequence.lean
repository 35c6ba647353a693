import Defeasible.Extraction.Default
import Defeasible.Proofs.Theory.Equivalence

/-! How consequences change with the evidence. Evidence may grow by literals that hold in some model at its
preferred level: the level stays, as more evidence is no more consistent with the levels below. If they hold
in all of these models, the models stay as well. -/

namespace Defeasible

open Query (Answers)

section Sets

variable {q : Query LiteralSet} {E : Error → Prop} {P Q : Literal → Prop} {m : Literal}

theorem Query.Meets.insert (found : q.Meets (fun ls => ∀ l, l ∈ ls ↔ P l) E) (single : ∀ l, Q l ↔ l = m) :
    (q >>= fun ls => pure (ls.insert m)).Meets (fun ls => ∀ l, l ∈ ls ↔ P l ∨ Q l) E := by
  refine found.bind fun ls mem => .pure fun l => ?_
  rw [OrdSet.mem_insert, mem, single, or_comm]

theorem Query.Meets.without (found : q.Meets (fun ls => ∀ l, l ∈ ls ↔ P l) E) (none : ∀ l, ¬ Q l) :
    q.Meets (fun ls => ∀ l, l ∈ ls ↔ P l ∨ Q l) E :=
  found.imp fun _ mem l => (mem l).trans (or_iff_left (none l)).symm

end Sets

namespace Theory

variable {t : Theory} {E : Error → Prop} {evidence set : Evidence} {n m : Necessity} {w : World}
  {l : Literal} {c : Clause}

/-! ### Preferred levels -/

theorem ModelAt.of_subset (model : t.ModelAt n set w) (lower : ∀ l ∈ evidence, l ∈ set) :
    t.ModelAt n evidence w :=
  ⟨model.cut, fun l hl => model.evidence l (lower l hl)⟩

theorem ConsistentAt.of_subset (consistent : t.ConsistentAt n set) (lower : ∀ l ∈ evidence, l ∈ set) :
    t.ConsistentAt n evidence :=
  consistent.imp fun _ model => model.of_subset lower

theorem Preferred.le (preferred : t.Preferred evidence n) (mem : m ∈ t.degrees)
    (consistent : t.ConsistentAt m evidence) : n ≤ m :=
  Necessity.not_lt.1 fun lt => preferred.lowest m mem lt consistent

theorem exists_preferred (mem : n ∈ t.degrees) (consistent : t.ConsistentAt n evidence) :
    ∃ m, t.Preferred evidence m := by
  let lower := measure fun n : Necessity => n.bits.toNat
  obtain ⟨m, ⟨hm, holds⟩, least⟩ :=
    lower.wf.has_min {m | m ∈ t.degrees ∧ t.ConsistentAt m evidence} ⟨n, mem, consistent⟩
  exact ⟨m, hm, holds, fun k hk lt possible => least k ⟨hk, possible⟩ (UInt64.lt_iff_toNat_lt.1 lt)⟩

theorem exists_preferred_of_subset (preferred : t.Preferred set n) (lower : ∀ l ∈ evidence, l ∈ set) :
    ∃ m, t.Preferred evidence m ∧ m ≤ n := by
  have consistent := preferred.consistent.of_subset lower
  obtain ⟨m, preferred'⟩ := exists_preferred preferred.mem consistent
  exact ⟨m, preferred', preferred'.le preferred.mem consistent⟩

theorem Preferred.grow (preferred : t.Preferred evidence n) (lower : ∀ l ∈ evidence, l ∈ set)
    (model : t.ModelAt n set w) : t.Preferred set n :=
  ⟨preferred.mem, ⟨w, model⟩,
    fun m hm lt consistent => preferred.lowest m hm lt (consistent.of_subset lower)⟩

theorem Preferred.entails_iff (preferred : t.Preferred evidence n) :
    t.Entails evidence c ↔ ∀ w, t.ModelAt n evidence w → c.Holds w := by
  constructor
  · rintro (always | ⟨m, preferred', holds⟩) w model
    · exact always w
    · obtain rfl := preferred.unique preferred'
      exact holds w model
  · exact fun holds => .inr ⟨n, preferred, holds⟩

/-! ### Consequences -/

theorem Entails.exists_preferred (entails : t.Entails evidence (.unit l)) :
    ∃ n, t.Preferred evidence n := by
  rcases entails with always | ⟨n, preferred, -⟩
  · exact absurd always (Clause.unit_can_fail l)
  · exact ⟨n, preferred⟩

theorem Preferred.entails_of_mem (preferred : t.Preferred evidence n) (mem : l ∈ evidence) :
    t.Entails evidence (.unit l) :=
  preferred.entails_iff.2 fun _ model => Clause.holds_unit.2 (model.evidence l mem)

theorem Entails.not_negate (entails : t.Entails evidence (.unit l)) :
    ¬ t.Entails evidence (.unit l.negate) := by
  intro opposite
  obtain ⟨n, preferred⟩ := entails.exists_preferred
  obtain ⟨w, model⟩ := preferred.consistent
  have holds := Clause.holds_unit.1 (preferred.entails_iff.1 entails w model)
  have fails := Clause.holds_unit.1 (preferred.entails_iff.1 opposite w model)
  exact Literal.holds_negate.1 fails holds

theorem Entails.insert (entails : t.Entails evidence c)
    (possible : ¬ t.Entails evidence (.unit l.negate)) : t.Entails (evidence.insert l) c := by
  rcases entails with always | ⟨n, preferred, holds⟩
  · exact .inl always
  obtain ⟨w, model, hl⟩ : ∃ w, t.ModelAt n evidence w ∧ l.Holds w := by
    by_contra excluded
    refine possible (preferred.entails_iff.2 fun w model => Clause.holds_unit.2 ?_)
    exact Literal.holds_negate.2 fun hl => excluded ⟨w, model, hl⟩
  have lower (m : Literal) (hm : m ∈ evidence) : m ∈ evidence.insert l := OrdSet.mem_insert.2 (.inr hm)
  have grown : t.ModelAt n (evidence.insert l) w := by
    refine ⟨model.cut, fun m hm => ?_⟩
    rcases OrdSet.mem_insert.1 hm with rfl | hm
    · exact hl
    · exact model.evidence m hm
  exact (preferred.grow lower grown).entails_iff.2 fun v model => holds v (model.of_subset lower)

theorem entails_settle : t.settle.Entails evidence c ↔ t.Entails evidence c :=
  (equivalent_settle t).entails_iff

structure Between (t : Theory) (evidence set : Evidence) : Prop where
  lower : ∀ l ∈ evidence, l ∈ set
  upper : ∀ l ∈ set, l ∈ evidence ∨ t.Entails evidence (.unit l)

namespace Between

theorem insert (entails : t.Entails evidence (.unit l)) : t.Between evidence (evidence.insert l) := by
  refine ⟨fun m hm => OrdSet.mem_insert.2 (.inr hm), fun m hm => ?_⟩
  rcases OrdSet.mem_insert.1 hm with rfl | hm
  · exact .inr entails
  · exact .inl hm

theorem modelAt_iff (between : t.Between evidence set) (preferred : t.Preferred evidence n) :
    t.ModelAt n set w ↔ t.ModelAt n evidence w := by
  refine ⟨fun model => model.of_subset between.lower, fun model => ⟨model.cut, fun l hl => ?_⟩⟩
  rcases between.upper l hl with hl | implied
  · exact model.evidence l hl
  · exact Clause.holds_unit.1 (preferred.entails_iff.1 implied w model)

theorem preferred (between : t.Between evidence set) (preferred : t.Preferred evidence n) :
    t.Preferred set n := by
  obtain ⟨w, model⟩ := preferred.consistent
  exact preferred.grow between.lower ((between.modelAt_iff preferred).2 model)

theorem preferred_iff (between : t.Between evidence set) : t.Preferred set n ↔ t.Preferred evidence n := by
  refine ⟨fun preferred => ?_, between.preferred⟩
  obtain ⟨m, preferred', -⟩ := exists_preferred_of_subset preferred between.lower
  rwa [preferred.unique (between.preferred preferred')]

theorem entails_iff (between : t.Between evidence set) : t.Entails set c ↔ t.Entails evidence c := by
  refine or_congr_right (exists_congr fun n => ?_)
  rw [between.preferred_iff]
  exact and_congr_right fun preferred => by simp only [between.modelAt_iff preferred]

end Between

/-! ### What the queries find -/

def preferredLevel (t : Theory) (evidence : Evidence) : Query (Option Necessity) :=
  return (← t.solve evidence).map (·.2)

@[mk_iff] structure Implied (t : Theory) (evidence : Evidence) (atoms : List Literal) (l : Literal) : Prop where
  over_atoms : l ∈ atoms ∨ l.negate ∈ atoms
  not_mem : ¬ l ∈ evidence
  negate_not_mem : ¬ l.negate ∈ evidence
  entails : t.Entails evidence (.unit l)

theorem implied_cons {atom : Literal} {atoms : List Literal} :
    t.Implied evidence (atom :: atoms) l ↔
      t.Implied evidence atoms l ∨ t.Implied evidence [atom] l := by
  simp only [implied_iff, List.mem_cons, List.not_mem_nil, or_false, ← or_and_right]
  refine and_congr_left fun _ => ?_
  rw [or_comm (a := l = atom), or_comm (a := l.negate = atom), or_or_or_comm]

theorem implied_singleton {atom : Literal} :
    t.Implied evidence [atom] l ↔
      (l = atom ∨ l = atom.negate) ∧ (¬ atom ∈ evidence ∧ ¬ atom.negate ∈ evidence) ∧
        t.Entails evidence (.unit l) := by
  have same : l.negate = atom ↔ l = atom.negate :=
    ⟨fun h => by rw [← h, Literal.negate_negate], fun h => by rw [h, Literal.negate_negate]⟩
  simp only [implied_iff, List.mem_singleton, same]
  constructor
  · rintro ⟨rfl | rfl, not_mem, negate_not_mem, entails⟩
    · exact ⟨.inl rfl, ⟨not_mem, negate_not_mem⟩, entails⟩
    · rw [Literal.negate_negate] at negate_not_mem
      exact ⟨.inr rfl, ⟨negate_not_mem, not_mem⟩, entails⟩
  · rintro ⟨rfl | rfl, ⟨not_mem, negate_not_mem⟩, entails⟩
    · exact ⟨.inl rfl, not_mem, negate_not_mem, entails⟩
    · rw [Literal.negate_negate]
      exact ⟨.inr rfl, negate_not_mem, not_mem, entails⟩

theorem exists_level (t : Theory) (evidence : Evidence) :
    ∃ level : Option Necessity, ∀ n, level = some n ↔ t.Preferred evidence n := by
  by_cases found : ∃ n, t.Preferred evidence n
  · obtain ⟨n, preferred⟩ := found
    refine ⟨some n, fun m => ⟨?_, fun preferred' => congrArg some (preferred.unique preferred')⟩⟩
    rintro ⟨⟩
    exact preferred
  · exact ⟨none, fun n => iff_of_false nofun fun preferred => found ⟨n, preferred⟩⟩

theorem exists_implied (t : Theory) (evidence : Evidence) (atoms : List Literal) :
    ∃ ls : LiteralSet, ∀ l, l ∈ ls ↔ t.Implied evidence atoms l := by
  classical
  refine ⟨(OrdSet.ofList (atoms ++ atoms.map Literal.negate)).filter (t.Implied evidence atoms ·), fun l => ?_⟩
  simp only [OrdSet.mem_filter, OrdSet.mem_ofList, List.mem_append, List.mem_map, decide_eq_true_eq]
  refine and_iff_right_of_imp fun h => h.over_atoms.imp_right fun mem => ?_
  exact ⟨l.negate, mem, Literal.negate_negate l⟩

namespace Askable

variable {asked : Literal → Prop} (askable : t.Askable asked E) (asked_evidence : ∀ l ∈ evidence, asked l)

include askable asked_evidence

theorem impliesLiteral_meets (asked_literal : asked l) :
    (t.impliesLiteral evidence l).Meets (fun b => b = true ↔ t.Entails evidence (.unit l)) E :=
  askable.implies_meets asked_evidence fun _ hm => Clause.mem_unit.1 hm ▸ asked_literal

theorem impliedLiterals_meets {atoms : List Literal} (asked_atoms : ∀ a ∈ atoms, asked a) :
    (t.impliedLiterals evidence atoms).Meets (fun ls => ∀ l, l ∈ ls ↔ t.Implied evidence atoms l) E := by
  induction atoms with
  | nil =>
    exact .pure fun l => iff_of_false (OrdSet.not_mem_empty l) fun h => by simpa using h.over_atoms
  | cons atom atoms ih =>
    have rest := ih fun a ha => asked_atoms a (List.mem_cons_of_mem atom ha)
    have asked_atom := asked_atoms atom List.mem_cons_self
    have asks (m : Literal) (asked_literal : asked m) :=
      askable.impliesLiteral_meets asked_evidence asked_literal
    refine Query.Meets.imp (P := fun ls => ∀ l, l ∈ ls ↔ t.Implied evidence atoms l ∨
      t.Implied evidence [atom] l) ?_ fun ls found l => (found l).trans implied_cons.symm
    rw [impliedLiterals]
    split
    · next decided =>
      rw [Bool.or_eq_true, OrdSet.has_eq_true, OrdSet.has_eq_true] at decided
      refine rest.without fun l h => ?_
      obtain ⟨-, undecided, -⟩ := implied_singleton.1 h
      exact decided.elim undecided.1 undecided.2
    next undecided =>
    rw [Bool.or_eq_true, OrdSet.has_eq_true, OrdSet.has_eq_true, not_or] at undecided
    refine (asks atom asked_atom).bind fun positive implied => ?_
    split
    · next holds =>
      have entails := implied.1 holds
      refine rest.insert fun l =>
        implied_singleton.trans ⟨?_, fun same => ⟨.inl same, undecided, same ▸ entails⟩⟩
      rintro ⟨rfl | rfl, -, also⟩
      · rfl
      · exact absurd also entails.not_negate
    next fails =>
    have not_entails := fun entails => fails (implied.2 entails)
    refine (asks atom.negate (askable.negate atom asked_atom)).bind fun negative implied => ?_
    split
    · next holds =>
      have entails := implied.1 holds
      refine rest.insert fun l =>
        implied_singleton.trans ⟨?_, fun same => ⟨.inr same, undecided, same ▸ entails⟩⟩
      rintro ⟨rfl | rfl, -, also⟩
      · exact absurd also not_entails
      · rfl
    · next fails =>
      refine rest.without fun l h => ?_
      obtain ⟨rfl | rfl, -, entails⟩ := implied_singleton.1 h
      · exact not_entails entails
      · exact fails (implied.2 entails)

end Askable

section Queries

variable (regular : t.Regular) (ground : ∀ c ∈ t.clauses, c.isGround = true) (solves : t.Solves E)
  (ground_evidence : ∀ l ∈ evidence, l.isGround = true)

include regular ground solves ground_evidence

theorem preferredLevel_meets :
    (t.preferredLevel evidence).Meets (fun level => ∀ n, level = some n ↔ t.Preferred evidence n) E := by
  refine (solve_meets regular ground solves ground_evidence).bind fun answer prefers => .pure fun n => ?_
  cases answer with
  | none => exact iff_of_false nofun fun preferred => prefers n preferred.mem preferred.consistent
  | some found =>
    refine ⟨?_, fun preferred => congrArg some (prefers.1.unique preferred)⟩
    rintro ⟨⟩
    exact prefers.1

theorem impliesLiteral_meets (ground_literal : l.isGround = true) :
    (t.impliesLiteral evidence l).Meets (fun b => b = true ↔ t.Entails evidence (.unit l)) E :=
  (askable_ground regular ground solves).impliesLiteral_meets ground_evidence ground_literal

theorem impliedLiterals_meets {atoms : List Literal} (ground_atoms : ∀ a ∈ atoms, a.isGround = true) :
    (t.impliedLiterals evidence atoms).Meets (fun ls => ∀ l, l ∈ ls ↔ t.Implied evidence atoms l) E :=
  (askable_ground regular ground solves).impliedLiterals_meets ground_evidence ground_atoms

end Queries

section Answers

variable (regular : t.Regular) (ground : ∀ c ∈ t.clauses, c.isGround = true) (probable : t.settings.Probable)
  (ground_evidence : ∀ l ∈ evidence, l.isGround = true)

include regular ground probable ground_evidence

theorem preferredLevel_answers {level : Option Necessity}
    (level_iff : ∀ n, level = some n ↔ t.Preferred evidence n) :
    (t.preferredLevel evidence).Answers t.settings level :=
  (preferredLevel_meets regular ground (solves_within probable) ground_evidence).answers fun _ found =>
    Option.ext fun n => (found n).trans (level_iff n).symm

theorem implies_answers (ground_consequent : c.isGround = true) {b : Bool}
    (b_iff : b = true ↔ t.Entails evidence c) : (t.implies evidence c).Answers t.settings b :=
  (implies_meets regular ground (solves_within probable) ground_evidence ground_consequent).answers
    fun _ found => Bool.eq_iff_iff.2 (found.trans b_iff.symm)

end Answers

/-- Whether two theories give the same answers about some evidence. The models that they find may differ, but those of
the second are right for the first. -/
structure SameAnswers (t u : Theory) (evidence : Evidence) : Prop where
  level : ∃ level, (t.preferredLevel evidence).Answers t.settings level ∧
    (u.preferredLevel evidence).Answers t.settings level
  models : (u.solve evidence).Meets (t.Prefers evidence) t.settings.Hinders
  implied : ∀ c : Clause, c.isGround = true →
    ∃ b, (t.implies evidence c).Answers t.settings b ∧ (u.implies evidence c).Answers t.settings b

theorem Equivalent.sameAnswers {u : Theory} (equivalent : u.Equivalent t) (settings : u.settings = t.settings)
    (regular : t.Regular) (regular' : u.Regular) (ground : ∀ c ∈ t.clauses, c.isGround = true)
    (ground' : ∀ c ∈ u.clauses, c.isGround = true) (probable : t.settings.Probable)
    (ground_evidence : ∀ l ∈ evidence, l.isGround = true) : t.SameAnswers u evidence := by
  classical
  have probable' : u.settings.Probable := settings ▸ probable
  obtain ⟨level, level_iff⟩ := t.exists_level evidence
  refine ⟨⟨level, ?_, ?_⟩, ?_, fun c ground_consequent => ⟨decide (t.Entails evidence c), ?_, ?_⟩⟩
  · exact preferredLevel_answers regular ground probable ground_evidence level_iff
  · rw [← settings]
    exact preferredLevel_answers regular' ground' probable' ground_evidence fun n =>
      (level_iff n).trans equivalent.preferred_iff.symm
  · rw [← settings]
    exact (solve_meets regular' ground' (solves_within probable') ground_evidence).imp fun _ => equivalent.prefers
  · exact implies_answers regular ground probable ground_evidence ground_consequent decide_eq_true_iff
  · rw [← settings]
    exact implies_answers regular' ground' probable' ground_evidence ground_consequent
      (decide_eq_true_iff.trans equivalent.entails_iff.symm)

/-! ### Laws of consequence -/

structure Rational (level : Evidence → Option Necessity) (implied : Evidence → Clause → Bool)
    (evidence : Evidence) : Prop where
  cumulative : ∀ l, implied evidence (.unit l) = true →
    level (evidence.insert l) = level evidence ∧ implied (evidence.insert l) = implied evidence
  rational : ∀ l c, implied evidence c = true → implied evidence (.unit l.negate) = false →
    implied (evidence.insert l) c = true
  consistent : ∀ l, ¬ (implied evidence (.unit l) = true ∧ implied evidence (.unit l.negate) = true)
  between : ∀ set : Evidence, (∀ l ∈ evidence, l ∈ set) →
    (∀ l ∈ set, l ∈ evidence ∨ implied evidence (.unit l) = true) →
    level set = level evidence ∧ implied set = implied evidence

theorem rational_of_iff {level : Evidence → Option Necessity} {implied : Evidence → Clause → Bool}
    (level_iff : ∀ evidence n, level evidence = some n ↔ t.Preferred evidence n)
    (implied_iff : ∀ evidence c, implied evidence c = true ↔ t.Entails evidence c) (evidence : Evidence) :
    Rational level implied evidence := by
  have same {set : Evidence} (between : t.Between evidence set) :
      level set = level evidence ∧ implied set = implied evidence := by
    constructor
    · exact Option.ext fun n => by rw [level_iff, level_iff, between.preferred_iff]
    · funext c
      exact Bool.eq_iff_iff.2 (by rw [implied_iff, implied_iff, between.entails_iff])
  refine ⟨fun l h => same (.insert ((implied_iff _ _).1 h)), fun l c entails possible => ?_, fun l both => ?_,
    fun set lower upper => same ⟨lower, fun l hl => (upper l hl).imp_right (implied_iff _ _).1⟩⟩
  · rw [implied_iff] at entails ⊢
    refine entails.insert fun excluded => ?_
    rw [(implied_iff _ _).2 excluded] at possible
    cases possible
  · exact Entails.not_negate ((implied_iff _ _).1 both.1) ((implied_iff _ _).1 both.2)

/-- The answers of a theory, where nothing hinders them, are those of a cumulative, rational and consistent
consequence relation. The sets between the two sets of a bound all have the same consequences. -/
theorem queries_rational (t : Theory) (regular : t.Regular) (ground : ∀ c ∈ t.clauses, c.isGround = true)
    (probable : t.settings.Probable) :
    ∃ (level : Evidence → Option Necessity) (implied : Evidence → Clause → Bool),
      ∀ evidence : Evidence, (∀ l ∈ evidence, l.isGround = true) →
        (t.preferredLevel evidence).Answers t.settings (level evidence) ∧
        (∀ c, c.isGround = true → (t.implies evidence c).Answers t.settings (implied evidence c)) ∧
        (∀ l, l.isGround = true →
          (t.impliesLiteral evidence l).Answers t.settings (implied evidence (.unit l))) ∧
        Rational level implied evidence ∧
        ∀ atoms, (∀ a ∈ atoms, a.isGround = true) → ∃ literals,
          (t.impliedLiterals evidence atoms).Answers t.settings literals ∧
          ∀ set, (⟨evidence, literals ∪ evidence⟩ : Bound).contains set = true →
            level set = level evidence ∧ implied set = implied evidence := by
  classical
  choose level level_iff using t.exists_level
  let implied (evidence : Evidence) (c : Clause) : Bool := decide (t.Entails evidence c)
  have implied_iff (evidence : Evidence) (c : Clause) : implied evidence c = true ↔ t.Entails evidence c :=
    decide_eq_true_iff
  have solves := solves_within probable
  refine ⟨level, implied, fun evidence ground_evidence => ?_⟩
  have laws := rational_of_iff level_iff implied_iff evidence
  have answers (c : Clause) (ground_consequent : c.isGround = true) :
      (t.implies evidence c).Answers t.settings (implied evidence c) :=
    (implies_meets regular ground solves ground_evidence ground_consequent).answers fun b entails =>
      Bool.eq_iff_iff.2 (entails.trans (implied_iff evidence c).symm)
  refine ⟨?_, answers, fun l ground_literal => answers _ (Clause.ground_unit ground_literal), laws,
    fun atoms ground_atoms => ?_⟩
  · exact (preferredLevel_meets regular ground solves ground_evidence).answers fun found preferred =>
      Option.ext fun n => (preferred n).trans (level_iff evidence n).symm
  obtain ⟨literals, literals_iff⟩ := t.exists_implied evidence atoms
  refine ⟨literals, ?_, fun set contained => ?_⟩
  · exact (impliedLiterals_meets regular ground solves ground_evidence ground_atoms).answers fun ls found =>
      OrdSet.ext fun l => (found l).trans (literals_iff l).symm
  rw [Bound.contains, Bool.and_eq_true, OrdSet.isSubset_eq_true, OrdSet.isSubset_eq_true] at contained
  refine laws.between set contained.1 fun l hl => ?_
  rcases OrdSet.mem_union.1 (contained.2 l hl) with hl | hl
  · exact .inr ((implied_iff _ _).2 ((literals_iff l).1 hl).entails)
  · exact .inl hl

theorem queries_rational_penguins : ∃ s',
    (penguins.implies (.insert (.singleton ⟨"penguin", [], true⟩) ⟨"bird", [], true⟩)
      (.unit ⟨"flies", [], false⟩)).run {} = (.ok true, s') := by
  obtain ⟨level, implied, laws⟩ := queries_rational penguins regular_penguins (by decide +kernel)
    Settings.probable_default
  obtain ⟨-, answers, -, rational, -⟩ := laws (.singleton ⟨"penguin", [], true⟩) (by decide +kernel)
  have asked (c : Clause) (ground_consequent : c.isGround = true)
      (found : ((penguins.implies (.singleton ⟨"penguin", [], true⟩) c).run {}).1 = .ok true) :
      implied (.singleton ⟨"penguin", [], true⟩) c = true := by
    obtain ⟨s', run, -⟩ := (answers c ground_consequent).run rfl (Session.truthful_new _)
    rw [run] at found
    exact Except.ok.inj found
  have birds := asked (.unit ⟨"bird", [], true⟩) (by decide +kernel) (by decide +kernel)
  have flightless := asked (.unit ⟨"flies", [], false⟩) (by decide +kernel) (by decide +kernel)
  obtain ⟨-, same⟩ := rational.cumulative _ birds
  obtain ⟨-, answers', -⟩ := laws (.insert (.singleton ⟨"penguin", [], true⟩) ⟨"bird", [], true⟩)
    (by decide +kernel)
  obtain ⟨s', run, -⟩ := (answers' (.unit ⟨"flies", [], false⟩) (by decide +kernel)).run rfl
    (Session.truthful_new _)
  rw [same, flightless] at run
  exact ⟨s', run⟩

end Theory

end Defeasible
