import Defeasible.Error
import Defeasible.Text.Alphanumeric
import Defeasible.Text.Blank
import Defeasible.Text.Split

/-! Literals read from text: marks of negation, a symbol, and perhaps arguments in parentheses. -/

namespace Defeasible.Literal

open Text

def isSymbolChar (c : Char) : Bool :=
  isAlphanumeric c || c == '_' || c == '@' || c == '-' || c == '.' || c == '\'' || c == '+' || c == '='

def isSymbol (cs : List Char) : Bool := !cs.isEmpty && cs.all isSymbolChar

def isMark (c : Char) : Bool := c == '!' || c == '~'

def parseArguments (cs : List Char) : Option (List Term) :=
  (splitAt ',' cs).mapM fun part =>
    let name := trim part
    if isSymbol name then some (Term.named (String.ofList name)) else none

def parseAtom (s : String) (polarity : Bool) (body : List Char) : Except ParseError Literal :=
  let name := trimEnd (body.takeWhile (· != '('))
  match body.dropWhile (· != '(') with
  | [] =>
    if isSymbol body then .ok ⟨String.ofList body, [], polarity⟩ else .error (.literal s)
  | _ :: rest =>
    let inner := rest.dropLast
    if rest.getLast? != some ')' || inner.any fun c => c == '(' || c == ')' then
      .error (.parenthesis s)
    else match parseArguments inner with
      | none => .error (.literal s)
      | some arguments =>
        if isSymbol name then .ok ⟨String.ofList name, arguments, polarity⟩
        else .error (.literal s)

/-- The literal of a text. Each mark in front of it negates it once more, and marks may be followed
by blanks. -/
def parse (s : String) : Except ParseError Literal :=
  let text := trim s.toList
  let body := text.dropWhile fun c => isMark c || isBlank c
  let marks := (text.takeWhile fun c => isMark c || isBlank c).countP isMark
  if text.isEmpty then .error .empty
  else if body.isEmpty then .error .negation
  else parseAtom s (marks % 2 == 0) body

end Defeasible.Literal
