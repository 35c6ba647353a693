import Defeasible.Clause.Basic

/-! Antecedents together with what they imply. A set of literals between an antecedent and the antecedent
with all it implies has the same consequences as the antecedent. A store finds out whether a set is
between the two for some stored antecedent, and looks only at those that share a literal with the set. -/

namespace Defeasible

structure Bound where
  lower : LiteralSet
  upper : LiteralSet
  deriving DecidableEq

namespace Bound

def contains (b : Bound) (set : LiteralSet) : Bool := b.lower.isSubset set && set.isSubset b.upper

def implied (b : Bound) : LiteralSet := b.upper.diff b.lower

end Bound

abbrev Places (κ : Type) := List (κ × List Nat)

def placesOf {κ : Type} [DecidableEq κ] (key : κ) (places : Places κ) : List Nat :=
  (places.lookup key).getD []

def addPlace {κ : Type} [DecidableEq κ] (key : κ) (place : Nat) : Places κ → Places κ
  | [] => [(key, [place])]
  | (k, ps) :: rest => if k = key then (k, ps ++ [place]) :: rest else (k, ps) :: addPlace key place rest

structure BoundTable where
  bounds : Array Bound := #[]
  byLength : Places Nat := []
  byLiteral : Places Literal := []
  deriving DecidableEq, Inhabited

namespace BoundTable

def size (s : BoundTable) : Nat := s.bounds.size

def isEmpty (s : BoundTable) : Bool := s.bounds.isEmpty

def store (s : BoundTable) (lower upper : LiteralSet) : BoundTable :=
  let place := s.bounds.size
  { bounds := s.bounds.push ⟨lower, upper⟩
    byLength := addPlace lower.size place s.byLength
    byLiteral := lower.toList.foldl (fun places l => addPlace l place places) s.byLiteral }

/-- Whether a set is between the two sets of some bound whose lower set is not empty. -/
def inside (s : BoundTable) (set : LiteralSet) : Bool :=
  set.toList.any fun l => (placesOf l s.byLiteral).any fun place =>
    s.bounds[place]?.any fun b => b.contains set

def ofLength (s : BoundTable) (length : Nat) : List Bound :=
  (placesOf length s.byLength).filterMap fun place => s.bounds[place]?

def toList (s : BoundTable) : List Bound := s.bounds.toList

end BoundTable

end Defeasible
