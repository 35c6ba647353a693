/-! The restart sequence 1, 1, 2, 1, 1, 2, 4, …, made by doubling: the second word doubles until it is
the lowest bit of the first, and then the first is counted up and the second starts again. -/

namespace Defeasible

structure Luby where
  u : UInt32 := 1
  v : UInt32 := 1
  deriving DecidableEq, Inhabited

namespace Luby

def current (l : Luby) : UInt32 := l.v

/-- The next element, until a word would overflow. -/
def next (l : Luby) : Option UInt32 × Luby :=
  if l.u &&& (0 - l.u) = l.v then
    if l.u.toNat + 1 < UInt32.size then (some l.v, ⟨l.u + 1, 1⟩) else (none, l)
  else
    if 2 * l.v.toNat < UInt32.size then (some l.v, ⟨l.u, 2 * l.v⟩) else (none, l)

end Luby

end Defeasible
