import Defeasible.Decimal.Binary64

/-! The decimal with the fewest digits that reads back as a given number, and of those the one nearest
to it. -/

namespace Defeasible.Decimal

structure Scaled where
  digits : Nat
  exponent : Int
  deriving DecidableEq

structure Interval where
  low : Nat
  value : Nat
  high : Nat
  den : Nat
  closed : Bool

/-- The interval of a number: half the way to its neighbours, where the neighbour below a power of two
is nearer. The ends belong to it if the mantissa is even. -/
def Interval.of (x : Dyadic) : Interval :=
  let (scale, den) := timesPower 2 x.exponent (1, 1)
  let below := if x.mantissa = hiddenBit then 1 else 2
  { low := (4 * x.mantissa - below) * scale
    value := 4 * x.mantissa * scale
    high := (4 * x.mantissa + 2) * scale
    den := 4 * den
    closed := x.mantissa % 2 == 0 }

def Interval.has (i : Interval) (digits : Nat) (exponent : Int) : Bool :=
  let (point, unit) := timesPower 10 exponent (digits * i.den, 1)
  if i.closed then i.low * unit ≤ point && point ≤ i.high * unit
  else i.low * unit < point && point < i.high * unit

/-- The point of a grid of tens nearest to the value, of those in the interval: one of the two
neighbours of the value on the grid. Of two that are as near, it is the upper one. -/
def Interval.nearest? (i : Interval) (exponent : Int) : Option Scaled :=
  let (num, den) := timesPower 10 (-exponent) (i.value, i.den)
  let d := num / den
  let r := num % den
  let down := i.has d exponent
  let up := i.has (d + 1) exponent
  if r = 0 then some ⟨d, exponent⟩
  else if up && (!down || den ≤ 2 * r) then some ⟨d + 1, exponent⟩
  else if down then some ⟨d, exponent⟩
  else none

def leastPower (num den : Nat) : Nat → Int → Int
  | 0, p => p
  | fuel + 1, p =>
    let (n, d) := timesPower 10 (-p) (num, den)
    if n < d then p else leastPower num den fuel (p + 1)

def Interval.shortest (i : Interval) : Nat → Int → Scaled
  | 0, exponent =>
    let (num, den) := timesPower 10 (-exponent) (i.value, i.den)
    ⟨num / den, exponent⟩
  | fuel + 1, exponent => (i.nearest? exponent).getD (i.shortest fuel (exponent - 1))

/-- The shortest decimal of a positive number; seventeen digits suffice for each. -/
def shortest (x : Dyadic) : Scaled :=
  let i := Interval.of x
  let start := ((i.value.log2 : Int) - i.den.log2 - 1) * 30103 / 100000 - 1
  i.shortest 17 (leastPower i.value i.den 6 start - 1)

end Defeasible.Decimal
