import Defeasible.Clause.Parser

/-! Default rules: normally, if every literal of the antecedent holds, some literal of the consequent
does. The text of a rule has an arrow between the two. -/

namespace Defeasible

structure DefaultRule where
  antecedent : Clause
  consequent : Clause
  deriving DecidableEq, Inhabited

namespace DefaultRule

open Text

instance : Ord DefaultRule := ⟨compareLex (compareOn antecedent) (compareOn consequent)⟩

instance : Std.TransOrd DefaultRule :=
  inferInstanceAs (Std.TransCmp (compareLex (compareOn antecedent) (compareOn consequent)))

instance : Std.LawfulEqOrd DefaultRule where
  toReflCmp := inferInstanceAs (Std.ReflCmp (compareLex (compareOn antecedent) (compareOn consequent)))
  eq_of_compare {r s} h := by
    obtain ⟨ha, hc⟩ := compareLex_eq_eq.1 h
    have ha := Std.LawfulEqOrd.eq_of_compare ha
    have hc := Std.LawfulEqOrd.eq_of_compare hc
    cases r; cases s; simp_all

def evidence (r : DefaultRule) : Evidence := r.antecedent.literals

def implication (r : DefaultRule) : Clause :=
  .ofList (r.antecedent.negated ++ r.consequent.toList)

def chars (r : DefaultRule) : List Char :=
  (if r.antecedent.isEmpty then [] else r.antecedent.chars ++ [' ']) ++
    '-' :: '>' :: ' ' :: r.consequent.chars

def text (r : DefaultRule) : String := String.ofList r.chars

instance : ToString DefaultRule := ⟨text⟩

/-- The rule of a text, cut at its first arrow. The consequent is read first, and may not be empty. -/
def parse (s : String) : Except ParseError DefaultRule :=
  match splitArrow s.toList with
  | none => .error (.rule s)
  | some (before, after) => do
    let consequent ← Clause.parseChars after
    if consequent.isEmpty then throw .empty
    return ⟨← Clause.parseChars before, consequent⟩

end DefaultRule

end Defeasible
