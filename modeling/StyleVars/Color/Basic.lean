import StyleVars.Decimal.Shortest

/-!
# Colours

A colour has three channels of one byte, an opacity between zero and one, and remembers the form in
which it was written. Its canonical text is `#` and two lowercase hexadecimal digits for each
channel, with two more for the opacity only where that is below one.
-/

namespace StyleVars

/-- The ways of writing a colour. -/
inductive ColorFormat where
  | hex
  | rgb
  | rgba
  | hsl
  | hsla
  | named
deriving Repr, DecidableEq

structure Color where
  red : UInt8
  green : UInt8
  blue : UInt8
  alpha : Float32
  format : ColorFormat

namespace Color

/-- Move an opacity into the interval from zero to one. What is no number stays so. -/
def clampAlpha (a : Float32) : Float32 := if a < 0.0 then 0.0 else if 1.0 < a then 1.0 else a

/-- A colour with its opacity moved into range. -/
def ofChannels (red green blue : UInt8) (alpha : Float32) (format : ColorFormat) : Color :=
  ⟨red, green, blue, clampAlpha alpha, format⟩

/-- The two lowercase hexadecimal digits of a byte. -/
def byteDigits (b : UInt8) : List Char :=
  [Nat.digitChar (b.toNat / 16), Nat.digitChar (b.toNat % 16)]

/-- The canonical digits of three opaque channels. -/
def opaqueDigits (red green blue : UInt8) : List Char :=
  '#' :: (byteDigits red ++ byteDigits green ++ byteDigits blue)

/-- Canonical text of three channels and an opacity. -/
def hexText (red green blue : UInt8) (alpha : Float32) : String :=
  if alpha < 1.0 then
    let level := (clampAlpha alpha * 255.0).round.toUInt8
    String.ofList (opaqueDigits red green blue ++ byteDigits level)
  else String.ofList (opaqueDigits red green blue)

/-- Canonical text of a colour. -/
def hex (c : Color) : String := hexText c.red c.green c.blue c.alpha

/-- The value of a hexadecimal digit in either case. -/
def hexDigit? (c : Char) : Option UInt8 :=
  if '0' ≤ c ∧ c ≤ '9' then some (c.toNat - '0'.toNat).toUInt8
  else if 'a' ≤ c ∧ c ≤ 'f' then some (c.toNat - 'a'.toNat + 10).toUInt8
  else if 'A' ≤ c ∧ c ≤ 'F' then some (c.toNat - 'A'.toNat + 10).toUInt8
  else none

/-- The channels and the opacity byte that 3, 4, 6 or 8 digits stand for. A single digit counts
double, and without digits for it the opacity is full. -/
def channels? : List UInt8 → Option (UInt8 × UInt8 × UInt8 × UInt8)
  | [r, g, b] => some (17 * r, 17 * g, 17 * b, 255)
  | [r, g, b, a] => some (17 * r, 17 * g, 17 * b, 17 * a)
  | [r, r', g, g', b, b'] => some (16 * r + r', 16 * g + g', 16 * b + b', 255)
  | [r, r', g, g', b, b', a, a'] => some (16 * r + r', 16 * g + g', 16 * b + b', 16 * a + a')
  | _ => none

/-- Read hexadecimal digits after at most one `#`. -/
def ofHex? (text : List Char) : Option Color := do
  let digits := match text with
    | '#' :: rest => rest
    | _ => text
  let (r, g, b, a) ← channels? (← digits.mapM hexDigit?)
  return ofChannels r g b (a.toFloat32 / 255.0) .hex

/-- A colour as a function call, with its opacity unless that is full. -/
def display (c : Color) : String :=
  let rgb := c.red.toNat.repr ++ ", " ++ c.green.toNat.repr ++ ", " ++ c.blue.toNat.repr
  if c.alpha == 1.0 then "rgb(" ++ rgb ++ ")"
  else "rgba(" ++ rgb ++ ", " ++ shortestDecimal c.alpha ++ ")"

/-- The gap between two channels. -/
def gap (a b : UInt8) : Nat := (a.toNat - b.toNat) + (b.toNat - a.toNat)

/-- Square of the distance between two colours, opacity aside. -/
def squaredDistance (c d : Color) : Nat :=
  Nat.pow (gap c.red d.red) 2 + Nat.pow (gap c.green d.green) 2 + Nat.pow (gap c.blue d.blue) 2

/-- Distance between two colours in the cube of their channels. -/
def distance (c d : Color) : Float := (Float.ofNat (squaredDistance c d)).sqrt

/-- A channel as a share of light. -/
def linearize (channel : UInt8) : Float :=
  let c := channel.toFloat / 255.0
  if c ≤ 0.03928 then c / 12.92 else ((c + 0.055) / 1.055).pow 2.4

/-- Relative luminance, from zero for black to one for white. -/
def luminance (c : Color) : Float :=
  0.2126 * linearize c.red + 0.7152 * linearize c.green + 0.0722 * linearize c.blue

/-- Contrast of two colours, from 1 to 21. -/
def contrast (c d : Color) : Float :=
  let lc := c.luminance
  let ld := d.luminance
  if ld ≤ lc then (lc + 0.05) / (ld + 0.05) else (ld + 0.05) / (lc + 0.05)

end Color

end StyleVars
