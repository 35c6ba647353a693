/-! Arguments of a command line in their order, by the options that they may give. An option takes its
value from the same argument or from the next. An argument that starts with a hyphen is an option, unless
it is a value after an equals sign or comes after two hyphens. The first mistake counts, and also wins over
help that is asked for later. -/

namespace Defeasible.CommandLine

inductive Usage
  | mistaken
  | informed
  deriving DecidableEq

def orMistaken {α : Type} : Option α → Except Usage α
  | some a => .ok a
  | none => .error .mistaken

abbrev Setter (σ : Type) := String → σ → Option σ

inductive OptionKind (σ : Type)
  | value (set : Setter σ)
  | flag (set : σ → Option σ)
  | information

structure OptionSpec (σ : Type) where
  name : String
  short : Option Char := none
  kind : OptionKind σ

inductive Argument
  | long (name : String) (value : Option String)
  | short (c : Char) (rest : String)
  | separator
  | word
  deriving DecidableEq

def Argument.of (a : String) : Argument :=
  match a.toList with
  | ['-', '-'] => .separator
  | '-' :: '-' :: cs =>
    match cs.dropWhile (· != '=') with
    | [] => .long (String.ofList cs) none
    | _ :: value => .long (String.ofList (cs.takeWhile (· != '='))) (some (String.ofList value))
  | '-' :: c :: cs => .short c (String.ofList cs)
  | _ => .word

def attached (rest : String) : Option String :=
  match rest.toList with
  | [] => none
  | '=' :: cs => some (String.ofList cs)
  | cs => some (String.ofList cs)

def matchOption {σ : Type} (options : List (OptionSpec σ)) :
    Argument → Option (OptionKind σ × Option String)
  | .long name value => (options.find? fun o => o.name = name).map fun o => (o.kind, value)
  | .short c rest =>
    (options.find? fun o => o.short = some c).map fun o =>
      match o.kind with
      | .value set => (.value set, attached rest)
      | kind => (kind, none)
  | .separator => none
  | .word => none

def addWords {σ : Type} (word : Setter σ) (given : σ) (words : List String) : Except Usage σ :=
  orMistaken (words.foldlM (fun given w => word w given) given)

/-- Adds what arguments give, where `pending` is an option that waits for its value. Without a place for
other arguments, the first of them ends this, and is the first of those that are left. -/
def scan {σ : Type} (options : List (OptionSpec σ)) (word : Option (Setter σ)) :
    (pending : Option (Setter σ)) → (args : List String) → (given : σ) → Except Usage (σ × List String)
  | some _, [], _ => .error .mistaken
  | none, [], given => .ok (given, [])
  | some set, a :: args, given =>
    match Argument.of a with
    | .word => do scan options word none args (← orMistaken (set a given))
    | _ => .error .mistaken
  | none, a :: args, given =>
    match Argument.of a, word with
    | .word, none => .ok (given, a :: args)
    | .word, some word => do scan options (some word) none args (← orMistaken (word a given))
    | .separator, none => .error .mistaken
    | .separator, some word => do return (← addWords word given args, [])
    | argument, _ =>
      match matchOption options argument with
      | some (.value set, some value) => do scan options word none args (← orMistaken (set value given))
      | some (.value set, none) => scan options word (some set) args given
      | some (.flag set, none) => do scan options word none args (← orMistaken (set given))
      | some (.information, none) => .error .informed
      | _ => .error .mistaken

end Defeasible.CommandLine
