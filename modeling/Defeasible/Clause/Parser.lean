import Defeasible.Clause.Basic
import Defeasible.Literal.Parser

/-! Clauses read from text: literals with commas between them, where the commas inside of parentheses
belong to the literals. -/

namespace Defeasible.Clause

open Text

def parseChars (cs : List Char) : Except ParseError Clause :=
  if (trim cs).isEmpty then .ok empty
  else match splitTopLevel 0 cs with
    | none => .error (.parenthesis (String.ofList cs))
    | some parts => ofList <$> parts.mapM fun part => Literal.parse (String.ofList part)

/-- The clause of a text. A blank text is the empty clause. -/
def parse (s : String) : Except ParseError Clause := parseChars s.toList

end Defeasible.Clause
