import Defeasible.Ground.Numbering

/-! An index of ground literals: a numbering with a second table, by which the number of a literal is found without
going through those of all others. -/

namespace Defeasible

open Search (Atom Lit)

structure Index where
  atoms : List (Literal × Atom) := []
  /-- The positive literals, that of number `a` at place `a - 1`. -/
  literals : Array Literal := #[]
  deriving DecidableEq, Inhabited

namespace Index

def size (i : Index) : Nat := i.literals.size

def isEmpty (i : Index) : Bool := i.literals.isEmpty

def register (i : Index) (l : Literal) : Except EngineError Atom × Index :=
  if !l.isGround then (.error (.nonGroundLiteral l), i)
  else match i.atoms.lookup l.positive with
    | some atom => (.ok atom, i)
    | none =>
      let atom := i.literals.size + 1
      (.ok atom, { atoms := (l.positive, atom) :: i.atoms, literals := i.literals.push l.positive })

def registerAll (i : Index) : List Literal → Except EngineError Unit × Index
  | [] => (.ok (), i)
  | l :: ls => match i.register l with
    | (.error e, i) => (.error e, i)
    | (.ok _, i) => registerAll i ls

def registerClause (i : Index) (c : Clause) : Except EngineError Unit × Index := i.registerAll c.toList

def atom? (i : Index) (l : Literal) : Option Atom :=
  if l.polarity then i.atoms.lookup l else i.atoms.lookup l.negate

def lit? (i : Index) (l : Literal) : Option Lit := (i.atom? l).map fun atom => ⟨atom, l.polarity⟩

def int? (i : Index) (l : Literal) : Option Int := (i.lit? l).bind Lit.toInt?

def clause (i : Index) (c : Clause) : Except EngineError (List Lit) :=
  c.toList.mapM fun l => match i.lit? l with
    | some lit => .ok lit
    | none => .error (.unindexedLiteral l)

def literal? (i : Index) : Atom → Option Literal
  | 0 => none
  | a + 1 => i.literals[a]?

def literalOf? (i : Index) (lit : Lit) : Option Literal :=
  (i.literal? lit.atom).map fun l => if lit.polarity then l else l.negate

end Index

end Defeasible
