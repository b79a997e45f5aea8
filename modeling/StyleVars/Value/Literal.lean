import StyleVars.Color.Reader
import StyleVars.Text.Digit

/-!
# Literals

A literal is a value written out where a variable could stand: a colour or a number with a unit.
Numbers without a unit are none, and nothing that holds `var(` is one.
-/

namespace StyleVars

namespace Literal

/-- The units of length, time, angle and resolution. -/
def units : List String :=
  ["px", "em", "rem", "%", "vh", "vw", "vmin", "vmax", "pt", "pc", "cm", "mm", "in", "ex", "ch",
   "ms", "s", "deg", "rad", "grad", "turn", "fr", "dpi", "dppx"]

/-- `#` followed by 3, 4, 6 or 8 hexadecimal digits. -/
def isHexColor : List Char → Bool
  | '#' :: digits =>
    digits.all (fun c => (Color.hexDigit? c).isSome) && [3, 4, 6, 8].contains digits.length
  | _ => false

/-- The start of a call of a colour function, in any case. -/
def startsColorCall (cs : List Char) : Bool :=
  let folded := cs.map foldCase
  ["rgb(", "rgba(", "hsl(", "hsla("].any fun start => start.toList.isPrefixOf folded

/-- What follows a number: digits with at most one point among them, and at least one digit. -/
def afterNumber? (cs : List Char) : Option (List Char) :=
  let whole := cs.takeWhile isDecimalDigit
  match cs.dropWhile isDecimalDigit with
  | '.' :: rest =>
    if whole.isEmpty && (rest.takeWhile isDecimalDigit).isEmpty then none
    else some (rest.dropWhile isDecimalDigit)
  | rest => if whole.isEmpty then none else some rest

/-- A number with an optional sign and a unit in any case. -/
def isMeasure (cs : List Char) : Bool :=
  let unsigned := match cs with
    | '+' :: rest => rest
    | '-' :: rest => rest
    | _ => cs
  match afterNumber? unsigned with
  | none => false
  | some unit => units.any fun u => u.toList == unit.map foldCase

/-- A colour keyword or `transparent`. -/
def isColorName (cs : List Char) : Bool :=
  match Color.read? cs with
  | some c => c.format == .named
  | none => false

/-- Whether `needle` occurs in `cs`. -/
def occurs (needle : List Char) : List Char → Bool
  | [] => needle.isEmpty
  | c :: cs => needle.isPrefixOf (c :: cs) || occurs needle cs

end Literal

/-- Whether a value is a literal. Blanks around it do not matter. -/
def isLiteral (value : List Char) : Bool :=
  let value := trimBlanks value
  !Literal.occurs "var(".toList value &&
    (Literal.isHexColor value || Literal.startsColorCall value || Literal.isMeasure value ||
      Literal.isColorName value)

end StyleVars
