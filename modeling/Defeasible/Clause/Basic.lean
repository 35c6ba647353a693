import Defeasible.Literal.Basic
import Defeasible.OrdSet

/-! Clauses: finite sets of literals, read as their disjunction. -/

namespace Defeasible

abbrev LiteralSet := OrdSet Literal

abbrev Evidence := LiteralSet

structure Clause where
  literals : LiteralSet
  deriving DecidableEq, Inhabited

namespace Clause

instance : Ord Clause := ⟨compareOn literals⟩

instance : Std.TransOrd Clause := inferInstanceAs (Std.TransCmp (compareOn literals))

instance : Std.LawfulEqOrd Clause where
  toReflCmp := inferInstanceAs (Std.ReflCmp (compareOn literals))
  eq_of_compare {c d} h := by
    have h := Std.LawfulEqOrd.eq_of_compare (a := c.literals) (b := d.literals) h
    cases c; cases d; cases h; rfl

instance : Membership Literal Clause := ⟨fun c l => l ∈ c.literals⟩

instance (l : Literal) (c : Clause) : Decidable (l ∈ c) :=
  inferInstanceAs (Decidable (l ∈ c.literals))

def empty : Clause := ⟨∅⟩

def unit (l : Literal) : Clause := ⟨.singleton l⟩

def ofList (ls : List Literal) : Clause := ⟨.ofList ls⟩

def toList (c : Clause) : List Literal := c.literals.toList

def size (c : Clause) : Nat := c.literals.size

def isEmpty (c : Clause) : Bool := c.literals.isEmpty

def has (c : Clause) (l : Literal) : Bool := c.literals.has l

def without (c : Clause) (l : Literal) : Clause := ⟨c.literals.erase l⟩

def isGround (c : Clause) : Bool := c.toList.all Literal.isGround

def isTautology (c : Clause) : Bool := c.toList.any fun l => !l.polarity && c.has l.negate

/-- The negations of the literals, in the order of the literals. Read as a conjunction they negate
the clause. -/
def negated (c : Clause) : List Literal := c.toList.map Literal.negate

def isFalsifiedBy (c : Clause) (evidence : Evidence) : Bool :=
  c.toList.all fun l => evidence.has l.negate

def chars (c : Clause) : List Char := Text.joinComma (c.toList.map Literal.chars)

def text (c : Clause) : String := String.ofList c.chars

instance : ToString Clause := ⟨text⟩

end Clause

abbrev ClauseSet := OrdSet Clause

end Defeasible
