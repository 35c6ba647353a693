import Defeasible.Decimal.Text
import Defeasible.Error

/-! Degrees of necessity: how certain a rule is, at most 1. A degree is held as the bits of its
floating-point value, and degrees are ordered by them, which for positive values is the order of the
values. -/

namespace Defeasible

structure Necessity where
  bits : UInt64
  deriving DecidableEq, Inhabited

namespace Necessity

instance : Ord Necessity := ⟨compareOn bits⟩

instance : Std.TransOrd Necessity := inferInstanceAs (Std.TransCmp (compareOn bits))

instance : Std.LawfulEqOrd Necessity where
  toReflCmp := inferInstanceAs (Std.ReflCmp (compareOn bits))
  eq_of_compare {a b} h := by
    have h := Std.LawfulEqOrd.eq_of_compare (a := a.bits) (b := b.bits) h
    cases a; cases b; cases h; rfl

instance : LT Necessity := ⟨fun a b => a.bits < b.bits⟩

instance : LE Necessity := ⟨fun a b => a.bits ≤ b.bits⟩

instance : DecidableLT Necessity := fun a b => inferInstanceAs (Decidable (a.bits < b.bits))

instance : DecidableLE Necessity := fun a b => inferInstanceAs (Decidable (a.bits ≤ b.bits))

def value (n : Necessity) : Float := Float.ofBits n.bits

def certain : Necessity := ⟨0x3ff0000000000000⟩

def ofFloat (x : Float) : Except NecessityError Necessity :=
  if x.isNaN then .error .notANumber
  else if x ≤ 0 || 1 < x then .error .outOfRange
  else .ok ⟨x.toBits⟩

/-- The necessity of one level of many, where the first is the least certain. The degrees are spread
evenly, and the last stays below certainty. -/
def ofLevel (index count : Nat) : Necessity :=
  ⟨((UInt64.ofNat (index + 1)).toFloat / (UInt64.ofNat (count + 1)).toFloat).toBits⟩

def ofLevel? (index count : Nat) : Option Necessity :=
  if index + 1 < UInt64.size ∧ count + 1 < UInt64.size then some (ofLevel index count) else none

def text (n : Necessity) : String := Decimal.text n.value

instance : ToString Necessity := ⟨text⟩

end Necessity

end Defeasible
