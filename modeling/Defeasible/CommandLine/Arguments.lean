import Defeasible.CommandLine.Scan
import Defeasible.Decimal.Text
import Defeasible.Settings

/-! What the arguments of the program say: options of the solver, the name of a command, and what belongs
to the command. Every option may be given once, and so may the dataset of a command. -/

namespace Defeasible.CommandLine

inductive Command
  | closure (defaults : String)
  | extract (defaults : String) (maxLength : Option Nat)
  | query (defaults evidence consequent : String)
  | coverage (defaults examples : String)
  deriving DecidableEq

def Command.defaults : Command → String
  | .closure defaults => defaults
  | .extract defaults _ => defaults
  | .query defaults _ _ => defaults
  | .coverage defaults _ => defaults

def parseDigits? (limit : Nat) (cs : List Char) : Option Nat :=
  if !cs.isEmpty && cs.all Char.isDigit && Decimal.natOfDigits cs < limit then some (Decimal.natOfDigits cs)
  else none

def parseNat? (limit : Nat) (s : String) : Option Nat :=
  match s.toList with
  | '+' :: cs => parseDigits? limit cs
  | cs => parseDigits? limit cs

def parseSigned? (limit : Nat) (s : String) : Option Nat :=
  match s.toList with
  | '-' :: cs => parseDigits? 1 cs
  | _ => parseNat? limit s

def parseSeconds? (s : String) : Option Nat := (parseNat? UInt64.size s).map (· * 1000000000)

def parsePath? (s : String) : Option String := if s.isEmpty then none else some s

def fill {α : Type} (place value : Option α) : Option (Option α) :=
  match place with
  | none => value.map some
  | some _ => none

def helpOption {σ : Type} : OptionSpec σ := ⟨"help", some 'h', .information⟩

def solverOptions : List (OptionSpec Settings.Update) :=
  [⟨"luby", some 'l', .value fun s u => do
      return { u with lubyUnit := ← fill u.lubyUnit (parseSigned? UInt32.size s) }⟩,
   ⟨"polarity-lean", some 'p', .value fun s u => do
      return { u with polarityLean := ← fill u.polarityLean (Decimal.parse? s) }⟩,
   ⟨"random-decision-bias", none, .value fun s u => do
      return { u with randomDecisionBias := ← fill u.randomDecisionBias (Decimal.parse? s) }⟩,
   ⟨"no-restart", none, .flag fun u => do
      return { u with restart := ← fill u.restart (some false) }⟩,
   ⟨"time", some 't', .value fun s u => do
      return { u with timeLimit := ← fill u.timeLimit (parseSeconds? s) }⟩,
   ⟨"optimisation-time", none, .value fun s u => do
      return { u with optimisationTimeout := ← fill u.optimisationTimeout (parseSeconds? s) }⟩,
   ⟨"caching", none, .flag fun u => do
      return { u with caching := ← fill u.caching (some true) }⟩,
   ⟨"workers", some 'w', .value fun s u => do
      return { u with workers := ← fill u.workers (parseNat? UInt64.size s) }⟩,
   helpOption, ⟨"version", some 'V', .information⟩]

structure Given where
  defaults : Option String := none
  maxLength : Option Nat := none
  evidence : Option String := none
  consequent : Option String := none
  examples : Option String := none
  deriving DecidableEq

structure CommandSpec where
  name : String
  options : List (OptionSpec Given)
  command : Given → Option Command

def commands : List CommandSpec :=
  [⟨"closure", [helpOption], fun g => do return .closure (← g.defaults)⟩,
   ⟨"extract",
    [⟨"max-length", some 'm', .value fun s g => do
        return { g with maxLength := ← fill g.maxLength (parseNat? UInt64.size s) }⟩, helpOption],
    fun g => do return .extract (← g.defaults) g.maxLength⟩,
   ⟨"query",
    [⟨"evidence", some 'e', .value fun s g => do
        return { g with evidence := ← fill g.evidence (some s) }⟩,
     ⟨"consequent", some 'c', .value fun s g => do
        return { g with consequent := ← fill g.consequent (some s) }⟩, helpOption],
    fun g => do return .query (← g.defaults) (g.evidence.getD "") (← g.consequent)⟩,
   ⟨"coverage",
    [⟨"examples", some 'x', .value fun s g => do
        return { g with examples := ← fill g.examples (parsePath? s) }⟩, helpOption],
    fun g => do return .coverage (← g.defaults) (← g.examples)⟩]

def datasetWord : Setter Given := fun s g => do
  return { g with defaults := ← fill g.defaults (parsePath? s) }

def CommandSpec.parse (c : CommandSpec) (args : List String) : Except Usage Command := do
  let (given, _) ← scan c.options (some datasetWord) none args {}
  orMistaken (c.command given)

def askHelp : List String → Usage
  | [] => .informed
  | [name] => if name = "help" ∨ commands.any (fun c => c.name = name) then .informed else .mistaken
  | _ => .mistaken

def parse (args : List String) : Except Usage (Settings.Update × Command) := do
  let (update, rest) ← scan solverOptions none none args {}
  match rest with
  | [] => throw .mistaken
  | name :: args =>
    match commands.find? fun c => c.name = name with
    | some command => return (update, ← command.parse args)
    | none => throw (if name = "help" then askHelp args else .mistaken)

end Defeasible.CommandLine
