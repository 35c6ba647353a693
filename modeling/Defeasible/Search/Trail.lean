import Defeasible.Search.Lit

/-! The literals made true by a search, in order, cut into levels: each decision opens one. -/

namespace Defeasible.Search

structure Trail where
  literals : Array Lit := #[]
  starts : Array Nat := #[]
  head : Nat := 0
  deriving DecidableEq, Inhabited

namespace Trail

/-- The current level. An index of a level has 32 bits, so this is the level as long as fewer than `UInt32.size` are
open, for which there would have to be as many atoms and assumptions. -/
def level (t : Trail) : Nat := t.starts.size

def isDecided (t : Trail) : Bool := !t.starts.isEmpty

def push (t : Trail) (l : Lit) : Trail := { t with literals := t.literals.push l }

def openLevel (t : Trail) : Trail := { t with starts := t.starts.push t.literals.size }

def next? (t : Trail) : Option (Lit × Trail) :=
  t.literals[t.head]?.map fun l => (l, { t with head := t.head + 1 })

def clearAbove (t : Trail) (level : Nat) : List Lit × Trail :=
  match t.starts[level]? with
  | none => ([], t)
  | some start =>
    (t.literals.toList.drop start,
      { literals := t.literals.take start
        starts := t.starts.take level
        head := min t.head start })

end Trail

end Defeasible.Search
