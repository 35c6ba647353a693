import Defeasible.Decimal.Shortest

/-! The text of a floating-point number, without exponent however small or large the number is, and
numbers read from text. -/

namespace Defeasible.Decimal

def Scaled.chars (x : Scaled) : List Char :=
  let written := Nat.toDigits 10 x.digits
  let kept := (written.reverse.dropWhile (· == '0')).reverse
  let exponent := x.exponent + (written.length - kept.length : Nat)
  let point := (kept.length : Int) + exponent
  if 0 ≤ exponent then kept ++ List.replicate exponent.toNat '0'
  else if 0 < point then kept.take point.toNat ++ '.' :: kept.drop point.toNat
  else '0' :: '.' :: List.replicate (-point).toNat '0' ++ kept

def text (x : Float) : String :=
  let bits := x.toBits
  let magnitude := bits &&& ~~~signBit
  if infinityBits < magnitude then "NaN"
  else
    let sign := if bits &&& signBit = 0 then "" else "-"
    if magnitude = infinityBits then sign ++ "inf"
    else if magnitude = 0 then sign ++ "0"
    else sign ++ String.ofList (shortest (Dyadic.ofBits magnitude)).chars

def Scaled.bits (x : Scaled) : UInt64 :=
  let place := ((Nat.toDigits 10 x.digits).length : Int) + x.exponent
  if x.digits = 0 ∨ place < -400 then 0
  else if 400 < place then infinityBits
  else
    let (num, den) := timesPower 10 x.exponent (x.digits, 1)
    nearestBits num den

def digitValue (c : Char) : Nat := c.toNat - '0'.toNat

def natOfDigits (cs : List Char) : Nat := cs.foldl (fun n c => 10 * n + digitValue c) 0

def parseExponent : List Char → Option Int
  | [] => some 0
  | c :: cs =>
    let (negative, ds) := match cs with
      | '-' :: ds => (true, ds)
      | '+' :: ds => (false, ds)
      | ds => (false, ds)
    if (c == 'e' || c == 'E') && !ds.isEmpty && ds.all Char.isDigit then
      some (if negative then -(natOfDigits ds : Int) else natOfDigits ds)
    else none

def parseScaled (cs : List Char) : Option Scaled :=
  let whole := cs.takeWhile Char.isDigit
  let rest := cs.dropWhile Char.isDigit
  let (fraction, rest) := match rest with
    | '.' :: rest => (rest.takeWhile Char.isDigit, rest.dropWhile Char.isDigit)
    | rest => ([], rest)
  if whole.isEmpty && fraction.isEmpty then none
  else (parseExponent rest).map fun e => ⟨natOfDigits (whole ++ fraction), e - fraction.length⟩

def parseBits (cs : List Char) : Option UInt64 :=
  let name := String.ofList (cs.map Char.toLower)
  if name = "inf" ∨ name = "infinity" then some infinityBits
  else if name = "nan" then some 0x7ff8000000000000
  else (parseScaled cs).map Scaled.bits

def parse? (s : String) : Option Float :=
  match s.toList with
  | '-' :: cs => (parseBits cs).map fun bits => Float.ofBits (bits ||| signBit)
  | '+' :: cs => (parseBits cs).map Float.ofBits
  | cs => (parseBits cs).map Float.ofBits

end Defeasible.Decimal
