import Defeasible.Counting.Dimacs
import Defeasible.Decimal.Text
import Defeasible.Text.Blank
import Defeasible.Text.Lines
import Defeasible.Text.Split

/-! Model counts by another program. It is given a formula in a file, and announces the count on a line of
its output. -/

namespace Defeasible.External

open Text

def announcement : String := "Number of solutions: "

/-- A natural number: perhaps a plus, then digits, with underscores anywhere after the first. -/
def parseNat? (cs : List Char) : Option Nat :=
  let cs := match cs with
    | '+' :: '+' :: _ => cs
    | '+' :: rest => rest
    | _ => cs
  match cs with
  | [] => none
  | c :: rest =>
    if c.isDigit && rest.all fun c => c.isDigit || c == '_' then
      some (Decimal.natOfDigits (cs.filter Char.isDigit))
    else none

def undecodable : CountError := .io "stream did not contain valid UTF-8"

def lines (bytes : Bytes) : Except CountError (List (List Char)) :=
  (byteLines bytes).mapM fun l => match decode l with
    | some cs => .ok (chomp cs)
    | none => .error undecodable

def lastCount (found : Nat) : List Bytes → Except CountError Nat
  | [] => .ok found
  | l :: ls => match decode l with
    | none => .error undecodable
    | some cs => match stripStart announcement.toList (chomp cs) with
      | none => lastCount found ls
      | some number => match parseNat? (trim number) with
        | none => .error (.malformed (String.ofList (chomp cs)))
        | some n => lastCount n ls

/-- The count that an output announces; zero, if it announces none. -/
def parseCount (output : Bytes) : Except CountError Nat := lastCount 0 (byteLines output)

def announces (output : Bytes) : Bool :=
  ((byteLines output).map decode).takeWhile Option.isSome |>.any fun
    | some cs => (stripStart announcement.toList (chomp cs)).isSome
    | none => false

inductive Launch
  | failed (reason : String)
  | ran (output errors : Bytes) (status : Nat)
  deriving DecidableEq

def Launch.count : Launch → Except CountError Nat
  | .failed reason => .error (.io reason)
  | .ran output errors status => do
    discard <| lines errors
    if status = 0 ∨ announces output then parseCount output else throw (.failed status)

def countOption : String := "-#c"

structure Attempt where
  count : Except Error Nat
  given : Option (String × String) := none
  filesLeft : Nat := 0

/-- Counts the models of clauses. A file for the formula is made first, unless that is refused; it stays
if the clauses are not ground. -/
def attempt (refused : Option String) (launch : (option formula : String) → Launch) (clauses : List Clause) :
    Attempt :=
  match refused with
  | some reason => { count := .error (.count (.io reason)) }
  | none => match Dimacs.write clauses with
    | .error e => { count := .error (.engine e), filesLeft := 1 }
    | .ok (formula, _) =>
      { count := (launch countOption formula).count.mapError .count, given := some (countOption, formula) }

end Defeasible.External
