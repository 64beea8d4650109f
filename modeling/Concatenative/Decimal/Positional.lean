import Concatenative.Decimal.Shortest

/-! Doubles as text, and decimal text as doubles. Numbers are written with the fewest digits that
read back, never with an exponent and without a point when they are whole. -/
namespace Concatenative.Decimal

/-- Digits with the point put in place. -/
def Scientific.positional (d : Scientific) : String :=
  let digits := (toString d.digits).toList
  if 0 ≤ d.exponent then String.ofList (digits ++ List.replicate d.exponent.toNat '0')
  else
    let places := (-d.exponent).toNat
    let padded := List.replicate (places + 1 - digits.length) '0' ++ digits
    let whole := padded.length - places
    String.ofList (padded.take whole ++ '.' :: padded.drop whole)

def floatText (x : Float) : String :=
  let bits := x.toBits
  let sign := if bits >>> 63 = 1 then "-" else ""
  if x.isNaN then "NaN"
  else if x.isInf then sign ++ "inf"
  else if bits <<< 1 = 0 then sign ++ "0"
  else sign ++ (shortest (.ofBits bits)).positional

/-- The number that a run of decimal digits stands for. -/
def digitsValue (digits : List Char) : Nat :=
  digits.foldl (fun n c => 10 * n + (c.toNat - '0'.toNat)) 0

/-- The double nearest to `digits * 10 ^ exponent`. Decimals beyond the range of doubles are told
by their magnitude, so that an exponent of any size costs nothing. -/
def nearest (digits : Nat) (exponent : Int) : Float :=
  let top := (digitCount digits : Int) + exponent
  if digits = 0 ∨ top < -330 then 0
  else if top > 310 then 1 / 0
  else Float.ofScientific digits (exponent < 0) exponent.natAbs

end Concatenative.Decimal
