import Defeasible.Error

/-! A stream of pseudorandom words: a permuted congruential generator with 64 bits of state and words
of 32 bits, and the draws made from it. The draws `chance` and `below` stand for those of the `rand` package, and
follow what it documents. -/

namespace Defeasible

structure Pcg where
  state : UInt64
  deriving DecidableEq, Inhabited

namespace Pcg

def increment : UInt64 := 1442695040888963407

def multiplier : UInt64 := 6364136223846793005

def rotateRight (x : UInt32) (amount : UInt32) : UInt32 := (x >>> amount) ||| (x <<< (32 - amount))

def next (g : Pcg) : UInt32 × Pcg :=
  let mixed := (((g.state >>> 18) ^^^ g.state) >>> 27).toUInt32
  let rotation := (g.state >>> 59).toUInt32
  (rotateRight mixed rotation, ⟨g.state * multiplier + increment⟩)

def ofSeed (seed : UInt64) : Pcg :=
  let g := (Pcg.mk 0).next.2
  (Pcg.mk (g.state + seed)).next.2

def nextLong (g : Pcg) : UInt64 × Pcg :=
  let (low, g) := g.next
  let (high, g) := g.next
  (high.toUInt64 <<< 32 ||| low.toUInt64, g)

def lowBytes (word : Nat) : Nat → List UInt8
  | 0 => []
  | count + 1 => .ofNat word :: lowBytes (word / 256) count

def bytes (count : Nat) (g : Pcg) : List UInt8 × Pcg :=
  if count = 0 then ([], g)
  else if count ≤ 4 then
    let (word, g) := g.next
    (lowBytes word.toNat count, g)
  else
    let (word, g) := g.nextLong
    let (rest, g) := bytes (count - 8) g
    (lowBytes word.toNat (min count 8) ++ rest, g)
termination_by count

def bytes? (count : Nat) (g : Pcg) : Except Fault (List UInt8) × Pcg :=
  if count < Nat.pow 2 63 then
    let (bytes, g) := g.bytes count
    (.ok bytes, g)
  else (.error .overflow, g)

/-- True with a probability. Certainty needs no draw. -/
def chance (p : Float) (g : Pcg) : Except Fault Bool × Pcg :=
  if 0 ≤ p && p < 1 then
    let (word, g) := g.nextLong
    (.ok (word < (p * 18446744073709551616.0).toUInt64), g)
  else if p == 1 then (.ok true, g)
  else (.error .improbable, g)

/-- A number below `n` from draws below `words`: the high part of the product of a draw with `n`. A
second draw refines the product where that might carry into the high part. -/
def scaled (words n : Nat) (draw : Pcg → Nat × Pcg) (g : Pcg) : Nat × Pcg :=
  let (x, g) := draw g
  let high := x * n / words
  let low := x * n % words
  if words - n < low then
    let (y, g) := draw g
    (if words ≤ low + y * n / words then high + 1 else high, g)
  else (high, g)

def below (n : Nat) (g : Pcg) : Except Fault Nat × Pcg :=
  if n = 0 then (.error .emptyRange, g)
  else if n < UInt32.size then
    let (x, g) := scaled UInt32.size n (fun g => (g.next.1.toNat, g.next.2)) g
    (.ok x, g)
  else
    let (x, g) := scaled UInt64.size n (fun g => (g.nextLong.1.toNat, g.nextLong.2)) g
    (.ok x, g)

end Pcg

end Defeasible
