import StyleVars.Decimal.BinaryFraction

/-!
# Shortest decimals

An opacity is written with the fewest digits that read back as the same single-precision number.
The reals that round to a given number form an interval around it. The coarsest decimal grid with a
point in that interval gives the digits; of two such points the nearer one is taken, and of two
equally near ones the larger.
-/

namespace StyleVars

/-- A positive number `value * 2 ^ exponent` with the interval from `low` to `high`, in the same
units, of the reals that round to it. -/
structure Rounding where
  low : Nat
  value : Nat
  high : Nat
  exponent : Int
  /-- Whether the ends of the interval belong to it. -/
  closed : Bool
deriving Repr, DecidableEq

namespace Rounding

/-- The interval of a number `m * 2 ^ q` of single precision. The gap below a power of two is half
as wide as the gap above, except among the smallest numbers. -/
def ofSingle (m : Nat) (q : Int) : Rounding where
  low := if m = Nat.pow 2 23 ∧ -149 < q then 4 * m - 1 else 4 * m - 2
  value := 4 * m
  high := 4 * m + 2
  exponent := q - 2
  closed := m % 2 = 0

/-- The point `c` with `c * 10 ^ k` in the interval and nearest to the value. -/
def gridPoint? (r : Rounding) (k : Int) : Option Nat :=
  let unit := Nat.pow 2 r.exponent.toNat * Nat.pow 10 (-k).toNat
  let step := Nat.pow 2 (-r.exponent).toNat * Nat.pow 10 k.toNat
  let inside (c : Nat) : Bool :=
    let x := c * step
    (r.low * unit < x && x < r.high * unit) ||
      (r.closed && (x == r.low * unit || x == r.high * unit))
  let below := r.value * unit / step
  match inside below, inside (below + 1) with
  | true, true =>
    if r.value * unit - below * step < (below + 1) * step - r.value * unit then some below
    else some (below + 1)
  | true, false => some below
  | false, true => some (below + 1)
  | false, false => none

/-- The point of the coarsest grid among `10 ^ k`, `10 ^ (k - 1)`, and so on, that has one. -/
def coarsest? (r : Rounding) : Nat → Int → Option (Nat × Int)
  | 0, _ => none
  | grids + 1, k =>
    match r.gridPoint? k with
    | some c => some (c, k)
    | none => r.coarsest? grids (k - 1)

end Rounding

/-- Write `c * 10 ^ k` without an exponent. -/
def positional (c : Nat) (k : Int) : String :=
  let digits := Nat.toDigits 10 c
  if 0 ≤ k then String.ofList (digits ++ List.replicate k.toNat '0')
  else
    let places := (-k).toNat
    let padded := List.replicate (places + 1 - digits.length) '0' ++ digits
    String.ofList (padded.take (padded.length - places) ++
      '.' :: padded.drop (padded.length - places))

/-- Shortest text that reads back as the single-precision number `x`. Grids from `10 ^ 39` down to
`10 ^ -60` suffice for every such number. -/
def shortestDecimal (x : Float32) : String :=
  match BinaryFraction.ofFloat32? x with
  | none => if x.isNaN then "NaN" else if x < 0.0 then "-inf" else "inf"
  | some d =>
    let point :=
      if d.mantissa = 0 then none
      else (Rounding.ofSingle d.mantissa d.exponent).coarsest? 100 39
    let magnitude := match point with
      | some (c, k) => positional c k
      | none => "0"
    (if d.negative then "-" else "") ++ magnitude

end StyleVars
