import Defeasible.Clause.Basic
import Defeasible.Error
import Defeasible.Search.Lit

/-! A numbering of ground literals. Each proposition gets the next number, from 1, when it is first
registered, and a literal and its negation share a number with opposite signs. -/

namespace Defeasible

open Search (Atom Lit)

structure Numbering where
  literals : List Literal := []
  deriving DecidableEq, Inhabited

namespace Numbering

def size (n : Numbering) : Nat := n.literals.length

def isEmpty (n : Numbering) : Bool := n.literals.isEmpty

def atom? (n : Numbering) (l : Literal) : Option Atom :=
  (n.literals.idxOf? l.positive).map (· + 1)

def register (n : Numbering) (l : Literal) : Except EngineError Atom × Numbering :=
  if !l.isGround then (.error (.nonGroundLiteral l), n)
  else match n.atom? l with
    | some atom => (.ok atom, n)
    | none => (.ok (n.size + 1), ⟨n.literals ++ [l.positive]⟩)

def registerAll (n : Numbering) : List Literal → Except EngineError Unit × Numbering
  | [] => (.ok (), n)
  | l :: ls => match n.register l with
    | (.error e, n) => (.error e, n)
    | (.ok _, n) => registerAll n ls

def registerClause (n : Numbering) (c : Clause) : Except EngineError Unit × Numbering :=
  n.registerAll c.toList

def registerClauses (n : Numbering) : List Clause → Except EngineError Numbering
  | [] => .ok n
  | c :: cs => match n.registerClause c with
    | (.error e, _) => .error e
    | (.ok (), n) => registerClauses n cs

def lit? (n : Numbering) (l : Literal) : Option Lit :=
  (n.atom? l).map fun atom => ⟨atom, l.polarity⟩

def lits (n : Numbering) (ls : List Literal) : Except EngineError (List Lit) :=
  ls.mapM fun l => match n.lit? l with
    | some lit => .ok lit
    | none => .error (.unindexedLiteral l)

def clause (n : Numbering) (c : Clause) : Except EngineError (List Lit) := n.lits c.toList

def literal? (n : Numbering) : Atom → Option Literal
  | 0 => none
  | i + 1 => n.literals[i]?

def literalOf? (n : Numbering) (lit : Lit) : Option Literal :=
  (n.literal? lit.atom).map fun l => if lit.polarity then l else l.negate

end Numbering

end Defeasible
