import Defeasible.Text.Uppercase
import Defeasible.Text.Join

/-! Literals: a predicate applied to terms, with a polarity. They are ordered by predicate, then by
arguments, then by polarity, so a literal and its negation are neighbours. -/

namespace Defeasible

inductive Term
  | const (name : String)
  | var (name : String)
  deriving DecidableEq, Inhabited

namespace Term

def name : Term → String
  | .const name => name
  | .var name => name

def isVariable : Term → Bool
  | .const _ => false
  | .var _ => true

/-- The term of a name: a variable if the name starts with an upper-case letter or an underscore. -/
def named (name : String) : Term :=
  match name.toList with
  | c :: _ => if Text.isUppercase c || c == '_' then .var name else .const name
  | [] => .const name

instance : Ord Term := ⟨compareLex (compareOn isVariable) (compareOn name)⟩

instance : Std.TransOrd Term :=
  inferInstanceAs (Std.TransCmp (compareLex (compareOn isVariable) (compareOn name)))

theorem eq_of_compare {s t : Term} (h : compare s t = .eq) : s = t := by
  obtain ⟨hv, hn⟩ := compareLex_eq_eq.1 h
  have hv := Std.LawfulEqOrd.eq_of_compare hv
  have hn := Std.LawfulEqOrd.eq_of_compare hn
  cases s <;> cases t <;> simp_all [isVariable, name]

instance : Std.LawfulEqOrd Term where
  toReflCmp := inferInstanceAs (Std.ReflCmp (compareLex (compareOn isVariable) (compareOn name)))
  eq_of_compare := eq_of_compare

end Term

structure Literal where
  predicate : String
  arguments : List Term := []
  polarity : Bool := true
  deriving DecidableEq, Inhabited

namespace Literal

def negate (l : Literal) : Literal := { l with polarity := !l.polarity }

def positive (l : Literal) : Literal := { l with polarity := true }

def arity (l : Literal) : Nat := l.arguments.length

def isGround (l : Literal) : Bool := l.arguments.all fun t => !t.isVariable

instance : Ord Literal :=
  ⟨compareLex (compareOn predicate) (compareLex (compareOn arguments) (compareOn polarity))⟩

instance : Std.TransOrd Literal :=
  inferInstanceAs (Std.TransCmp
    (compareLex (compareOn predicate) (compareLex (compareOn arguments) (compareOn polarity))))

theorem eq_of_compare {l m : Literal} (h : compare l m = .eq) : l = m := by
  obtain ⟨hp, h⟩ := compareLex_eq_eq.1 h
  obtain ⟨ha, hs⟩ := compareLex_eq_eq.1 h
  have hp := Std.LawfulEqOrd.eq_of_compare hp
  have ha := Std.LawfulEqOrd.eq_of_compare ha
  have hs := Std.LawfulEqOrd.eq_of_compare hs
  cases l; cases m; simp_all

instance : Std.LawfulEqOrd Literal where
  toReflCmp := inferInstanceAs (Std.ReflCmp
    (compareLex (compareOn predicate) (compareLex (compareOn arguments) (compareOn polarity))))
  eq_of_compare := eq_of_compare

@[simp] theorem negate_negate (l : Literal) : l.negate.negate = l := by simp [negate]

@[simp] theorem isGround_negate (l : Literal) : l.negate.isGround = l.isGround := rfl

@[simp] theorem isGround_positive (l : Literal) : l.positive.isGround = l.isGround := rfl

def chars (l : Literal) : List Char :=
  (if l.polarity then [] else ['!']) ++ l.predicate.toList ++
    (if l.arguments.isEmpty then []
      else '(' :: Text.joinComma (l.arguments.map fun t => t.name.toList) ++ [')'])

def text (l : Literal) : String := String.ofList l.chars

instance : ToString Literal := ⟨text⟩

end Literal

end Defeasible
