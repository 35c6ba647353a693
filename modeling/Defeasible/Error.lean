import Defeasible.Literal.Basic
import Defeasible.Text.Quoted

/-! What can go wrong, by cause, and the message for each cause. Inconsistency is never an error: a
formula without a model and a set of rules without a ranking are answers. -/

namespace Defeasible

inductive ParseError
  | empty
  | negation
  | parenthesis (text : String)
  | literal (text : String)
  | rule (text : String)
  | line (count : Nat)
  deriving DecidableEq

inductive AnalysisError
  | emptyResolution
  | noAssertion
  | missingReason
  deriving DecidableEq

inductive SettingsError
  | outOfRange (option : String)
  deriving DecidableEq

inductive CountError
  | io (reason : String)
  | malformed (line : String)
  | failed (status : Nat)
  deriving DecidableEq

inductive EngineError
  | unindexedLiteral (l : Literal)
  | nonGroundLiteral (l : Literal)
  | zeroWeight
  | timeUp
  deriving DecidableEq

inductive NecessityError
  | outOfRange
  | notANumber
  deriving DecidableEq

inductive TheoryError
  | nonGround
  | stratificationMismatch (levels weights : Nat)
  deriving DecidableEq

inductive Fault
  | outOfBounds
  | improbable
  | emptyRange
  | overflow
  /-- A search came to the bound on its steps, which is no answer. -/
  | unfinished
  deriving DecidableEq

inductive Error
  | analysis (e : AnalysisError)
  | settings (e : SettingsError)
  | count (e : CountError)
  | engine (e : EngineError)
  | necessity (e : NecessityError)
  | parse (e : ParseError)
  | theory (e : TheoryError)
  | fault (e : Fault)
  deriving DecidableEq

def Term.describe : Term → String
  | .const name => "Constant(" ++ Text.quote name ++ ")"
  | .var name => "Variable(" ++ Text.quote name ++ ")"

def Literal.describe (l : Literal) : String :=
  "Literal \x7b predicate: " ++ Text.quote l.predicate ++
    ", arguments: [" ++ ", ".intercalate (l.arguments.map Term.describe) ++
    "], polarity: " ++ (if l.polarity then "true" else "false") ++ " \x7d"

namespace ParseError

def message : ParseError → String
  | empty => "Empty"
  | negation => "Negation"
  | parenthesis text => "Parenthesis(" ++ Text.quote text ++ ")"
  | literal text => "Literal(" ++ Text.quote text ++ ")"
  | rule text => "Rule(" ++ Text.quote text ++ ")"
  | line count => "Line(" ++ toString count ++ ")"

end ParseError

namespace AnalysisError

def message : AnalysisError → String
  | emptyResolution => "EmptyResolution"
  | noAssertion => "NoAssertion"
  | missingReason => "MissingReason"

end AnalysisError

namespace SettingsError

def message : SettingsError → String
  | outOfRange option => "OutOfRange(" ++ Text.quote option ++ ")"

end SettingsError

namespace CountError

def message : CountError → String
  | io reason => "failed to run the model counter: " ++ reason
  | malformed line => "unexpected model counter output: " ++ line
  | failed status => "model counter failed: exit status: " ++ toString status

end CountError

namespace EngineError

def message : EngineError → String
  | unindexedLiteral l => "UnindexedLiteral(" ++ l.describe ++ ")"
  | nonGroundLiteral l => "NonGroundLiteral(" ++ l.describe ++ ")"
  | zeroWeight => "ZeroWeight"
  | timeUp => "TimeUp"

end EngineError

namespace NecessityError

def message : NecessityError → String
  | outOfRange => "OutOfRange"
  | notANumber => "NotANumber"

end NecessityError

namespace TheoryError

def message : TheoryError → String
  | nonGround => "NonGround"
  | stratificationMismatch levels weights =>
    "StratificationMismatch \x7b levels: " ++ toString levels ++ ", weights: " ++ toString weights ++
      " \x7d"

end TheoryError

namespace Fault

def message : Fault → String
  | outOfBounds => "index out of bounds"
  | improbable => "not a probability"
  | emptyRange => "empty range"
  | overflow => "overflow"
  | unfinished => "unfinished"

end Fault

namespace Error

def message : Error → String
  | analysis e => "analysis: " ++ e.message
  | settings e => "config: " ++ e.message
  | count e => "model count: " ++ e.message
  | engine e => "engine: " ++ e.message
  | necessity e => "necessity: " ++ e.message
  | parse e => "parse: " ++ e.message
  | theory e => "theory: " ++ e.message
  | fault e => "fault: " ++ e.message

end Error

end Defeasible
