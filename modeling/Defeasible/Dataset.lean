import Defeasible.DefaultRule
import Defeasible.Text.Lines

/-! Datasets of default rules, one on a line. Lines that are no rule are passed over, as is a line with
more than one arrow. -/

namespace Defeasible.Dataset

open Text

def ruleOf? (line : List Char) : Option DefaultRule :=
  let cs := trim line
  if countArrows cs = 1 then (DefaultRule.parse (String.ofList cs)).toOption else none

def readLines (count : Nat) : List Bytes → Except ParseError (List DefaultRule)
  | [] => .ok []
  | l :: ls => match decode l with
    | none => .error (.line count)
    | some cs => do
      let rules ← readLines (count + 1) ls
      return match ruleOf? cs with
        | some r => r :: rules
        | none => rules

def read (bytes : Bytes) : Except ParseError (List DefaultRule) := readLines 0 (byteLines bytes)

end Defeasible.Dataset
