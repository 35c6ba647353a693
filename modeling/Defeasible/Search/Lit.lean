/-! Literals of the solver: an atom, which is a number, with a polarity. -/

namespace Defeasible.Search

abbrev Atom := Nat

structure Lit where
  atom : Atom
  polarity : Bool
  deriving DecidableEq, Inhabited

namespace Lit

def negate (l : Lit) : Lit := { l with polarity := !l.polarity }

@[simp] theorem negate_negate (l : Lit) : l.negate.negate = l := by simp [negate]

@[simp] theorem atom_negate (l : Lit) : l.negate.atom = l.atom := rfl

/-- The literal of a signed number; zero is read as a negative literal. -/
def ofInt (i : Int) : Lit := ⟨i.natAbs, 0 < i⟩

def toInt (l : Lit) : Int := if l.polarity then l.atom else -l.atom

def toInt? (l : Lit) : Option Int := if 2 * l.atom < UInt32.size then some l.toInt else none

def watchIndex (l : Lit) : Nat := 2 * l.atom + l.polarity.toNat

instance : Ord Lit := ⟨compareLex (compareOn atom) (compareOn polarity)⟩

instance : ToString Lit := ⟨fun l => toString l.toInt⟩

end Lit

end Defeasible.Search
