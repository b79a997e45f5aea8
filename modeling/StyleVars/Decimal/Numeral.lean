/-!
# Numerals

A numeral is an optional sign followed by digits with an optional point, of which at least one digit
is needed, and an optional exponent; or by one of the words for infinity and for no number, in any
case. Blanks, separators and other bases are not accepted. Reading rounds once, to the precision
asked for.
-/

namespace StyleVars

inductive Numeral where
  /-- The number `± mantissa * 10 ^ exponent`. -/
  | finite (negative : Bool) (mantissa : Nat) (exponent : Int)
  | infinite (negative : Bool)
  | undefined
deriving Repr, DecidableEq

namespace Numeral

def digitsValue (digits : List Char) : Nat :=
  digits.foldl (fun n c => 10 * n + (c.toNat - '0'.toNat)) 0

/-- The exponent that ends a numeral: none, or a mark with an optionally signed number. -/
def exponent? : List Char → Option Int
  | [] => some 0
  | mark :: rest =>
    if mark = 'e' ∨ mark = 'E' then
      let (negative, digits) := match rest with
        | '-' :: ds => (true, ds)
        | '+' :: ds => (false, ds)
        | ds => (false, ds)
      if digits.isEmpty || !digits.all Char.isDigit then none
      else
        let n : Int := digitsValue digits
        some (if negative then -n else n)
    else none

/-- A numeral without its sign. -/
def magnitude? (negative : Bool) (cs : List Char) : Option Numeral :=
  let word := cs.map Char.toLower
  if word = "inf".toList ∨ word = "infinity".toList then some (.infinite negative)
  else if word = "nan".toList then some .undefined
  else
    let whole := cs.takeWhile Char.isDigit
    let (fraction, rest) := match cs.dropWhile Char.isDigit with
      | '.' :: more => (more.takeWhile Char.isDigit, more.dropWhile Char.isDigit)
      | more => ([], more)
    if whole.isEmpty && fraction.isEmpty then none
    else (exponent? rest).map fun e =>
      .finite negative (digitsValue (whole ++ fraction)) (e - fraction.length)

def read? : List Char → Option Numeral
  | '-' :: cs => magnitude? true cs
  | '+' :: cs => magnitude? false cs
  | cs => magnitude? false cs

/-- Whether `mantissa * 10 ^ exponent` is below `10 ^ -400`, too small for any format here. -/
def vanishes (mantissa : Nat) (exponent : Int) : Bool :=
  mantissa = 0 || (Nat.toDigits 10 mantissa).length + exponent < -400

/-- Whether `mantissa * 10 ^ exponent` is above `10 ^ 400`, too large for any format here. -/
def overflows (mantissa : Nat) (exponent : Int) : Bool :=
  mantissa ≠ 0 && 400 < (Nat.toDigits 10 mantissa).length + exponent

/-- The nearest double. -/
def toFloat : Numeral → Float
  | .undefined => 0.0 / 0.0
  | .infinite negative => if negative then -1.0 / 0.0 else 1.0 / 0.0
  | .finite negative mantissa exponent =>
    let x : Float :=
      if vanishes mantissa exponent then 0.0
      else if overflows mantissa exponent then 1.0 / 0.0
      else Float.ofScientific mantissa (exponent < 0) exponent.natAbs
    if negative then -x else x

/-- The nearest single-precision number. -/
def toFloat32 : Numeral → Float32
  | .undefined => 0.0 / 0.0
  | .infinite negative => if negative then -1.0 / 0.0 else 1.0 / 0.0
  | .finite negative mantissa exponent =>
    let x : Float32 :=
      if vanishes mantissa exponent then 0.0
      else if overflows mantissa exponent then 1.0 / 0.0
      else Float32.ofScientific mantissa (exponent < 0) exponent.natAbs
    if negative then -x else x

end Numeral

def readFloat? (cs : List Char) : Option Float := (Numeral.read? cs).map Numeral.toFloat

def readFloat32? (cs : List Char) : Option Float32 := (Numeral.read? cs).map Numeral.toFloat32

end StyleVars
