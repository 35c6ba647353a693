import Defeasible.Clause.Basic
import Defeasible.Necessity
import Defeasible.Settings
import Defeasible.Theory.Groundness

/-! Theories: clauses at levels of necessity, and hard rules that hold at every level. No level is
empty, and the levels are in ascending order of necessity. -/

namespace Defeasible

structure Level where
  necessity : Necessity
  clauses : ClauseSet
  deriving DecidableEq

structure Theory where
  levels : List Level := []
  hardRules : ClauseSet := ∅
  additionalAtoms : LiteralSet := ∅
  groundness : Groundness := .unknown
  /-- Whether queries share the answers of their session. -/
  cached : Bool := false
  settings : Settings := {}

namespace Theory

instance : Inhabited Theory := ⟨{}⟩

def agrees (t u : Theory) : Bool := t.levels = u.levels && t.hardRules = u.hardRules

def addToLevel (n : Necessity) (clauses : ClauseSet) : List Level → List Level
  | [] => [⟨n, clauses⟩]
  | level :: levels =>
    match compare n level.necessity with
    | .lt => ⟨n, clauses⟩ :: level :: levels
    | .eq => ⟨n, level.clauses ∪ clauses⟩ :: levels
    | .gt => level :: addToLevel n clauses levels

def addAll (t : Theory) (clauses : ClauseSet) (n : Necessity) : Theory :=
  { t with
    levels := if clauses.isEmpty then t.levels else addToLevel n clauses t.levels
    groundness := .unknown }

def addRule (t : Theory) (c : Clause) (n : Necessity) : Theory := t.addAll (.singleton c) n

def addHardRule (t : Theory) (c : Clause) : Theory :=
  { t with hardRules := t.hardRules.insert c, groundness := .unknown }

def addHardRules (t : Theory) (clauses : ClauseSet) : Theory :=
  { t with hardRules := t.hardRules ∪ clauses, groundness := .unknown }

def dropEmpty (levels : List Level) : List Level := levels.filter fun l => !l.clauses.isEmpty

def remove (t : Theory) (c : Clause) (n : Necessity) : Bool × Theory :=
  match t.levels.find? fun l => l.necessity = n with
  | none => (false, t)
  | some level =>
    (level.clauses.has c, { t with
      levels := dropEmpty (t.levels.map fun l =>
        if l.necessity = n then { l with clauses := l.clauses.erase c } else l)
      groundness := .unknown })

def removeEverywhere (t : Theory) (c : Clause) : Theory :=
  { t with
    levels := dropEmpty (t.levels.map fun l => { l with clauses := l.clauses.erase c })
    groundness := .unknown }

def removeHardRule (t : Theory) (c : Clause) : Bool × Theory :=
  (t.hardRules.has c, { t with hardRules := t.hardRules.erase c, groundness := .unknown })

def addAtom (t : Theory) (l : Literal) : Theory :=
  { t with additionalAtoms := t.additionalAtoms.insert l.positive, groundness := .unknown }

def removeFalsified (t : Theory) (evidence : Evidence) : Theory :=
  { t with
    levels := dropEmpty (t.levels.map fun l =>
      { l with clauses := l.clauses.filter fun c => !c.isFalsifiedBy evidence })
    groundness := .unknown }

def withHardRules (t : Theory) (clauses : ClauseSet) : Theory := t.addHardRules clauses

def withSettings (t : Theory) (settings : Settings) : Theory := { t with settings }

def withCache (t : Theory) : Theory := { t with cached := true }

def ofRules (rules : List (Clause × Necessity)) : Theory :=
  rules.foldl (fun t (c, n) => t.addRule c n) {}

def ofLevels (levels : List Level) : Theory :=
  levels.foldl (fun t l => t.addAll l.clauses l.necessity) {}

/-- A theory with a level for each stratum, from the least certain one on. Empty strata have their share
in the spread of the necessities. -/
def ofStrata (strata : List ClauseSet) : Theory :=
  ofLevels (strata.zipIdx.map fun (clauses, i) => ⟨.ofLevel i strata.length, clauses⟩)

def ofWeightedStrata (strata : List ClauseSet) (weights : List Necessity) : Except TheoryError Theory :=
  if strata.length ≠ weights.length then
    .error (.stratificationMismatch strata.length weights.length)
  else .ok (ofLevels ((weights.zip strata).map fun (n, clauses) => ⟨n, clauses⟩))

def weights (t : Theory) : List Necessity := t.levels.map (·.necessity)

def minNecessity? (t : Theory) : Option Necessity := t.weights.head?

def maxNecessity? (t : Theory) : Option Necessity := t.weights.getLast?

def strata (t : Theory) : List ClauseSet := t.levels.map (·.clauses)

def merge (bottom top : Theory) : Theory :=
  (ofStrata (bottom.strata ++ top.strata)).withHardRules (bottom.hardRules ∪ top.hardRules)

def unionAll (strata : List ClauseSet) : ClauseSet := strata.foldr (· ∪ ·) ∅

def level (t : Theory) (n : Necessity) : ClauseSet :=
  unionAll ((t.levels.filter fun l => l.necessity = n).map (·.clauses))

def cut (t : Theory) (n : Necessity) : ClauseSet :=
  unionAll ((t.levels.filter fun l => n ≤ l.necessity).map (·.clauses)) ∪ t.hardRules

def strictCut (t : Theory) (n : Necessity) : ClauseSet :=
  unionAll ((t.levels.filter fun l => n < l.necessity).map (·.clauses)) ∪ t.hardRules

def withLevels (t : Theory) (levels : List Level) : Theory :=
  { ofLevels levels with hardRules := t.hardRules, cached := t.cached, settings := t.settings }

def above (t : Theory) (n : Necessity) : Theory :=
  t.withLevels (t.levels.filter fun l => n ≤ l.necessity)

def strictlyAbove (t : Theory) (n : Necessity) : Theory :=
  t.withLevels (t.levels.filter fun l => n < l.necessity)

def rules (t : Theory) : List (Necessity × Clause) :=
  t.levels.flatMap fun l => l.clauses.toList.map fun c => (l.necessity, c)

def clauses (t : Theory) : List Clause := t.rules.map (·.2) ++ t.hardRules.toList

def atoms (t : Theory) : LiteralSet :=
  .ofList ((t.clauses.flatMap Clause.toList).map Literal.positive) ∪ t.additionalAtoms

def literalCount (t : Theory) : Nat := t.rules.foldr (fun r n => r.2.size + n) 0

def isGround (t : Theory) : Bool := (t.groundness.settle fun _ => t.clauses.all Clause.isGround).1

/-- The theory with a record of whether it is ground, for many queries to come. -/
def settle (t : Theory) : Theory :=
  { t with groundness := (t.groundness.settle fun _ => t.clauses.all Clause.isGround).2 }

def showLines (heading : String) (clauses : ClauseSet) : String :=
  heading ++ "\n" ++ String.join (clauses.toList.map fun c => "  " ++ c.text ++ "\n")

def text (t : Theory) : String :=
  (if t.hardRules.isEmpty then "" else showLines "Hard rules" t.hardRules) ++
    String.join (t.levels.reverse.map fun l => showLines ("Level " ++ l.necessity.text) l.clauses)

instance : ToString Theory := ⟨text⟩

end Theory

end Defeasible
