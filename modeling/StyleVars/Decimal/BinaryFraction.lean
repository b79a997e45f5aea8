/-!
# Binary fractions

The finite floating-point numbers are signed fractions `m * 2 ^ q`. They are taken apart here so
that their decimal forms and remainders can be computed exactly on natural numbers.
-/

namespace StyleVars

/-- The number `± mantissa * 2 ^ exponent`. -/
structure BinaryFraction where
  negative : Bool
  mantissa : Nat
  exponent : Int
deriving Repr, DecidableEq

namespace BinaryFraction

/-- A number in a binary format with `fraction` fraction bits and `width` exponent bits, given by
its encoding. Infinities and numbers that are none have no value. -/
def ofEncoding? (fraction width : Nat) (bits : Nat) : Option BinaryFraction :=
  let field := bits / Nat.pow 2 fraction % Nat.pow 2 width
  let low := bits % Nat.pow 2 fraction
  let negative := bits / Nat.pow 2 (fraction + width) % 2 == 1
  let least : Int := 2 - Nat.pow 2 (width - 1) - fraction
  if field = Nat.pow 2 width - 1 then none
  else if field = 0 then some ⟨negative, low, least⟩
  else some ⟨negative, Nat.pow 2 fraction + low, least + field - 1⟩

def ofFloat? (x : Float) : Option BinaryFraction := ofEncoding? 52 11 x.toBits.toNat

def ofFloat32? (x : Float32) : Option BinaryFraction := ofEncoding? 23 8 x.toBits.toNat

/-- The double equal to the fraction, which needs at most 53 bits of mantissa. -/
def toFloat (d : BinaryFraction) : Float :=
  let magnitude := Float.scaleB (Float.ofNat d.mantissa) d.exponent
  if d.negative then -magnitude else magnitude

/-- What is left of `x` after taking away a whole number of times `y`; it has the sign of `x`. -/
def remainder (x y : BinaryFraction) : BinaryFraction :=
  let least := min x.exponent y.exponent
  let whole := x.mantissa * Nat.pow 2 (x.exponent - least).toNat
  let part := y.mantissa * Nat.pow 2 (y.exponent - least).toNat
  ⟨x.negative, whole % part, least⟩

end BinaryFraction

/-- Exact remainder of a division of doubles, with the sign of the dividend. There is none when the
dividend is not finite. -/
def remainder (x y : Float) : Float :=
  match BinaryFraction.ofFloat? x, BinaryFraction.ofFloat? y with
  | some a, some b => if b.mantissa = 0 then 0.0 / 0.0 else (a.remainder b).toFloat
  | some _, none => if y.isNaN then y else x
  | none, _ => 0.0 / 0.0

/-- The remainder shifted into the interval from zero up to `y`. -/
def cyclicRemainder (x y : Float) : Float :=
  let r := remainder x y
  if r < 0.0 then r + y.abs else r

/-- Move `x` into the interval from `lo` to `hi`. What is no number stays so. -/
def clamp (lo hi x : Float) : Float := if x < lo then lo else if hi < x then hi else x

end StyleVars
