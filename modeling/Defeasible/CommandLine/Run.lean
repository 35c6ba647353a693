import Defeasible.CommandLine.Arguments
import Defeasible.Dataset
import Defeasible.Extraction.Default
import Defeasible.Theory.Coverage

/-! Commands on datasets of default rules, and what they print. -/

namespace Defeasible.CommandLine

inductive Source
  | missing
  | unreadable
  | file (bytes : Text.Bytes)

inductive Ending
  | failed (e : Error)
  | closed (status : Nat)

structure Console where
  session : Session := {}
  output : String := ""

abbrev Action (α : Type) := ExceptT Ending (StateM Console) α

def print (text : String) : Action Unit := modify fun c => { c with output := c.output ++ text }

def printLine (text : String) : Action Unit := print (text ++ "\n")

def ask {α : Type} (q : Query α) : Action α := fun c =>
  let (answer, session) := q.run c.session
  (answer.mapError .failed, { c with session })

def orFail {α ε : Type} (f : ε → Error) : Except ε α → Action α
  | .ok a => pure a
  | .error e => throw (.failed (f e))

def loadRules (files : String → Source) (path : String) : Action (List DefaultRule) := do
  printLine ("Reading default rules from " ++ Text.quote path)
  match files path with
  | .missing =>
    printLine ("Failed to open " ++ Text.quote path)
    throw (.closed 1)
  | .unreadable => throw (.failed (.parse (.line 0)))
  | .file bytes => orFail .parse (Dataset.read bytes)

def runQuery (t : Theory) (evidence consequent : String) : Action Unit := do
  let evidence ← orFail .parse (Clause.parse evidence)
  let consequent ← orFail .parse (Clause.parse consequent)
  match ← ask (t.solve evidence.literals) with
  | some (_, n) => printLine ("Preferred level: " ++ n.text)
  | none => printLine "Evidence is inconsistent with the hard rules"
  printLine (if ← ask (t.implies evidence.literals consequent) then "true" else "false")

def runOn (files : String → Source) (t : Theory) : Command → Action Unit
  | .closure _ => print t.text
  | .extract _ _ => do
    let rules ← ask (t.extract ∅ t.settings.maxAntecedentLength.value)
    rules.toList.forM fun r => printLine r.text
  | .query _ evidence consequent => runQuery t evidence consequent
  | .coverage _ path => do
    let examples ← loadRules files path
    let covered ← ask (t.covered examples)
    covered.forM fun r => printLine r.text
    printLine ("Covered " ++ toString covered.length ++ " of " ++ toString examples.length ++ " examples")

def runCommand (files : String → Source) (settings : Settings) (command : Command) : Action Nat := do
  let rules ← loadRules files command.defaults
  printLine ("Read " ++ toString rules.length ++ " default rules")
  match ← ask (rationalClosure settings (.ofList rules)) with
  | none =>
    printLine "No rational closure exists for the dataset"
    return 1
  | some t =>
    runOn files (if settings.caching.value then t.withCache else t) command
    return 0

def settingsOf (update : Settings.Update) (command : Command) : Except SettingsError Settings := do
  let settings ← ({} : Settings).update update
  match command with
  | .extract _ (some length) => settings.update { maxAntecedentLength := some length }
  | _ => return settings

def cacheLine (settings : Settings) (cache : AnswerCache) : String :=
  if settings.caching.value then
    "Cache: " ++ toString cache.hits ++ " hits, " ++ toString cache.misses ++ " misses\n"
  else ""

/-- The status and the output of the program. A fault ends it at once, with status 101. -/
def run (files : String → Source) (args : List String) : Nat × String :=
  match parse args with
  | .error .mistaken => (2, "")
  | .error .informed => (0, "")
  | .ok (update, command) =>
    match settingsOf update command with
    | .error e => (1, "Configuration error: " ++ e.message ++ "\n")
    | .ok settings =>
      let (ending, console) := (runCommand files settings command).run {}
      let output := console.output ++ cacheLine settings console.session.cache
      match ending with
      | .ok status => (status, output)
      | .error (.failed (.fault _)) => (101, console.output)
      | .error (.failed e) => (2, output ++ "Error: " ++ e.message ++ "\n")
      | .error (.closed status) => (status, console.output)

def paths (args : List String) : List String :=
  match parse args with
  | .ok (_, .coverage defaults examples) => [defaults, examples]
  | .ok (_, command) => [command.defaults]
  | .error _ => []

end Defeasible.CommandLine
