import StyleVars.Decimal.Numeral

/-!
# JSON values

Settings are read from JSON and reports are written in it. A value keeps what reading settings
depends on: the order and repetition of keys, whether a number was written as an integer, and
whether the escapes of a string name whole characters.
-/

namespace StyleVars

/-- The number `± mantissa * 10 ^ exponent`. -/
structure JsonNumber where
  negative : Bool
  mantissa : Nat
  exponent : Int
  /-- Whether it was written without a point and without an exponent. -/
  integral : Bool
deriving Repr, DecidableEq

/-- A string has no value when one of its escapes stands for half a character. -/
inductive Json where
  | null
  | bool (b : Bool)
  | num (n : JsonNumber)
  | str (s : Option String)
  | arr (items : List Json)
  | obj (fields : List (Option String × Json))

namespace Json

def string (s : String) : Json := .str (some s)

def nat (n : Nat) : Json := .num ⟨false, n, 0, true⟩

/-- An object from its fields in order. -/
def record (fields : List (String × Json)) : Json := .obj (fields.map fun (k, v) => (some k, v))

/-- The last value given for a key. -/
def field? (key : String) : Json → Option Json
  | .obj fields => (fields.reverse.find? fun (k, _) => k == some key).map (·.2)
  | _ => none

def string? : Json → Option String
  | .str s => s
  | _ => none

def bool? : Json → Option Bool
  | .bool b => some b
  | _ => none

/-- A number written as an integer without a sign. -/
def nat? : Json → Option Nat
  | .num n => if n.integral && !n.negative then some n.mantissa else none
  | _ => none

def items? : Json → Option (List Json)
  | .arr items => some items
  | _ => none

def float? : Json → Option Float
  | .num n => some (Numeral.finite n.negative n.mantissa n.exponent).toFloat
  | _ => none

end Json

end StyleVars
