import StyleVars.Decimal.BinaryFraction

/-!
# Decimals with a fixed number of places

Scores, ratios and luminances are written with a fixed number of decimal places. The digits are
those of the exact value of the double; a half goes to the even neighbour.
-/

namespace StyleVars

/-- The integer nearest to `num / den`; of two equally near ones the even one. -/
def roundedQuotient (num den : Nat) : Nat :=
  let q := num / den
  let r := num % den
  if 2 * r < den then q
  else if den < 2 * r then q + 1
  else if q % 2 = 0 then q else q + 1

/-- Write `n / 10 ^ places`, with as many digits after the point as there are places. -/
def withPlaces (places n : Nat) : String :=
  let digits := Nat.toDigits 10 n
  let padded := List.replicate (places + 1 - digits.length) '0' ++ digits
  let whole := padded.take (padded.length - places)
  let fraction := padded.drop (padded.length - places)
  String.ofList (if places = 0 then whole else whole ++ '.' :: fraction)

namespace BinaryFraction

/-- The magnitude in units of `10 ^ -places`, rounded. -/
def scaled (places : Nat) (d : BinaryFraction) : Nat :=
  roundedQuotient (d.mantissa * Nat.pow 10 places * Nat.pow 2 d.exponent.toNat)
    (Nat.pow 2 (-d.exponent).toNat)

end BinaryFraction

/-- Text of a double with `places` digits after the point. -/
def fixedDecimal (places : Nat) (x : Float) : String :=
  match BinaryFraction.ofFloat? x with
  | none => if x.isNaN then "NaN" else if x < 0.0 then "-inf" else "inf"
  | some d => (if d.negative then "-" else "") ++ withPlaces places (d.scaled places)

end StyleVars
