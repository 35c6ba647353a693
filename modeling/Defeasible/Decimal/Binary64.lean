/-! Double-precision numbers as integers times powers of two, and the number nearest to a quotient. -/

namespace Defeasible.Decimal

def timesPower (base : Nat) (exponent : Int) (q : Nat × Nat) : Nat × Nat :=
  (q.1 * base.pow exponent.toNat, q.2 * base.pow (-exponent).toNat)

def hiddenBit : Nat := 0x10000000000000

structure Dyadic where
  mantissa : Nat
  exponent : Int
  deriving DecidableEq

def Dyadic.ofBits (bits : UInt64) : Dyadic :=
  let fraction := bits.toNat % hiddenBit
  let exponent : Nat := bits.toNat / hiddenBit % 2048
  if exponent = 0 then ⟨fraction, -1074⟩ else ⟨fraction + hiddenBit, (exponent : Int) - 1075⟩

def infinityBits : UInt64 := 0x7ff0000000000000

def signBit : UInt64 := 0x8000000000000000

def roundDiv (num den : Nat) : Nat :=
  let q := num / den
  let r := num % den
  if den < 2 * r ∨ (2 * r = den ∧ q % 2 = 1) then q + 1 else q

/-- The bits of the number nearest to a positive quotient. The exponent is the one that leaves the
integer part of the mantissa with 53 bits, if the number is not too small for that. -/
def nearestBits (num den : Nat) : UInt64 :=
  let low : Int := max ((num.log2 : Int) - den.log2 - 53) (-1074)
  let (n, d) := timesPower 2 (-low) (num, den)
  let e := if n / d < 2 * hiddenBit then low else low + 1
  let (n, d) := timesPower 2 (-e) (num, den)
  let bits := (e + 1074).toNat * hiddenBit + roundDiv n d
  if bits < infinityBits.toNat then .ofNat bits else infinityBits

end Defeasible.Decimal
