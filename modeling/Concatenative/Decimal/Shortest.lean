/-! The fewest decimal digits that read back as a given binary number. The search tries grids of
one, two, … digits and tests the two neighbours of the number on each, in exact arithmetic. -/
namespace Concatenative.Decimal

/-- A positive number `m * 2 ^ q` with the span of reals that round to it. -/
structure Binary where
  m : Nat
  q : Int
  /-- The gap to the number below is half the gap to the number above. -/
  narrow : Bool

/-- The magnitude that the bits of a finite double stand for. -/
def Binary.ofBits (bits : UInt64) : Binary :=
  let exponent := ((bits >>> 52) &&& 0x7ff).toNat
  let fraction := (bits &&& 0xfffffffffffff).toNat
  if exponent = 0 then ⟨fraction, -1074, false⟩
  else ⟨(1 <<< 52) + fraction, (exponent : Int) - 1075, fraction = 0 && exponent > 1⟩

/-- A decimal `digits * 10 ^ exponent`. -/
structure Scientific where
  digits : Nat
  exponent : Int

/-- `a * 2 ^ q / 10 ^ p` as a numerator over the denominator of `unit q p`. -/
def scaled (a : Nat) (q p : Int) : Nat := (a <<< q.toNat) * Nat.pow 10 (-p).toNat

/-- The common denominator of the numbers `scaled a q p`. -/
def unit (q p : Int) : Nat := (1 <<< (-q).toNat) * Nat.pow 10 p.toNat

/-- How many decimal digits `n` has; zero has one. -/
def digitCount (n : Nat) : Nat := if n < 10 then 1 else digitCount (n / 10) + 1

/-- The least `k` with `m * 2 ^ q < 10 ^ k`. -/
def magnitude (x : Binary) : Int :=
  let above := scaled x.m x.q 0
  let below := unit x.q 0
  if below ≤ above then digitCount (above / below)
  else 1 - (digitCount ((below - 1) / above) : Int)

/-- The neighbour of `x` among the multiples of `10 ^ p` that reads back as `x`. Of two the nearer
is taken, and of two as near the greater. The ends of the span count when `m` is even. -/
def onGrid? (x : Binary) (p : Int) : Option Nat :=
  let q := x.q - 2
  let whole := unit q p
  let value := scaled (4 * x.m) q p
  let low := scaled (if x.narrow then 4 * x.m - 1 else 4 * x.m - 2) q p
  let high := scaled (4 * x.m + 2) q p
  let inside (n : Nat) : Bool :=
    if x.m % 2 = 0 then low ≤ n && n ≤ high else low < n && n < high
  let floor := value / whole
  let down := inside (floor * whole)
  let up := inside ((floor + 1) * whole)
  if down && up then some (if 2 * (value % whole) < whole then floor else floor + 1)
  else if down then some floor
  else if up then some (floor + 1)
  else none

/-- Moves trailing zeros of the digits into the exponent. -/
def trimmed (digits : Nat) (exponent : Int) : Scientific :=
  if h : digits ≠ 0 ∧ digits % 10 = 0 then trimmed (digits / 10) (exponent + 1)
  else ⟨digits, exponent⟩
termination_by digits
decreasing_by omega

/-- Seventeen digits are enough for a double; past them the exact value stands. -/
def shortest (x : Binary) : Scientific :=
  let k := magnitude x
  let found := (List.range 17).findSome? fun n =>
    let p := k - (n + 1 : Nat)
    (onGrid? x p).map fun digits => trimmed digits p
  found.getD (trimmed ((x.m <<< x.q.toNat) * Nat.pow 5 (-x.q).toNat) (min x.q 0))

end Concatenative.Decimal
