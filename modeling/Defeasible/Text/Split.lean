/-! Ways to cut a text into parts. -/

namespace Defeasible.Text

def consFirst (c : Char) : List (List Char) → List (List Char)
  | [] => [[c]]
  | part :: parts => (c :: part) :: parts

def splitAt (sep : Char) : List Char → List (List Char)
  | [] => [[]]
  | c :: cs => if c = sep then [] :: splitAt sep cs else consFirst c (splitAt sep cs)

/-- The parts between the commas that stand outside of parentheses, when `depth` parentheses are
open already. There are none if a parenthesis is closed without being open, or left open. -/
def splitTopLevel : Nat → List Char → Option (List (List Char))
  | 0, [] => some [[]]
  | _ + 1, [] => none
  | depth, c :: cs =>
    if c = '(' then (splitTopLevel (depth + 1) cs).map (consFirst c)
    else if c = ')' then
      match depth with
      | 0 => none
      | depth + 1 => (splitTopLevel depth cs).map (consFirst c)
    else if c = ',' ∧ depth = 0 then (splitTopLevel 0 cs).map ([] :: ·)
    else (splitTopLevel depth cs).map (consFirst c)

def splitArrow : List Char → Option (List Char × List Char)
  | '-' :: '>' :: rest => some ([], rest)
  | c :: cs => (splitArrow cs).map fun (before, after) => (c :: before, after)
  | [] => none

def countArrows : List Char → Nat
  | '-' :: '>' :: rest => countArrows rest + 1
  | _ :: cs => countArrows cs
  | [] => 0

def stripStart : List Char → List Char → Option (List Char)
  | [], cs => some cs
  | _ :: _, [] => none
  | s :: ss, c :: cs => if s = c then stripStart ss cs else none

end Defeasible.Text
