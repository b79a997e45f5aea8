import StyleVars.Color.Keyword
import StyleVars.Decimal.BinaryFraction
import StyleVars.Decimal.Numeral
import StyleVars.Text.Blank
import StyleVars.Text.Letter
import StyleVars.Text.Split

/-!
# Reading colours

A colour is written in hexadecimal digits, as a call of `rgb`, `rgba`, `hsl` or `hsla`, as a keyword
or as `transparent`. Letter case and surrounding blanks do not matter. A call has three components
and perhaps an opacity, either all divided by commas, or divided by blanks with the opacity after a
slash.
-/

namespace StyleVars

namespace Color

/-- The text between the parentheses of a call of `name`, without blanks at its ends. Further
parentheses are not allowed. -/
def callArguments? (name cs : List Char) : Option (List Char) :=
  if (name ++ ['(']).isPrefixOf cs then
    let rest := cs.drop (name.length + 1)
    match rest.getLast? with
    | some ')' =>
      let inner := rest.dropLast
      if inner.any (fun c => c == '(' || c == ')') then none else some (trimBlanks inner)
    | _ => none
  else none

/-- The components of a call. -/
structure Components where
  first : List Char
  second : List Char
  third : List Char
  alpha : Option (List Char)
deriving Repr, DecidableEq

def Components.ofText? (args : List Char) : Option Components :=
  if args.contains ',' then
    match (splitAtEach ',' args).map trimBlanks with
    | [x, y, z] => some ⟨x, y, z, none⟩
    | [x, y, z, a] => some ⟨x, y, z, some a⟩
    | _ => none
  else
    let (channels, alpha) := match splitAtFirst? '/' args with
      | some (channels, alpha) => (channels, some (trimBlanks alpha))
      | none => (args, none)
    match blankSeparated channels with
    | [x, y, z] => some ⟨x, y, z, alpha⟩
    | _ => none

/-- An opacity, as a number or in percent. -/
def readAlpha? (cs : List Char) : Option Float32 :=
  match stripSuffix? ['%'] cs with
  | some percent => (readFloat32? (trimBlanks percent)).map fun x => clampAlpha (x / 100.0)
  | none => (readFloat32? cs).map clampAlpha

/-- The byte nearest to `x`, a half going away from zero. -/
def toByte (x : Float) : UInt8 := (clamp 0.0 255.0 x.round).toUInt8

/-- A channel, as a number or in percent. -/
def readChannel? (cs : List Char) : Option UInt8 :=
  match stripSuffix? ['%'] cs with
  | some percent => (readFloat? (trimBlanks percent)).map fun x => toByte (x * 2.55)
  | none => (readFloat? cs).map toByte

/-- A percentage, with or without its sign, as a share between zero and one. -/
def readShare? (cs : List Char) : Option Float :=
  let number := (stripSuffix? ['%'] cs).getD cs
  (readFloat? (trimBlanks number)).map fun x => clamp 0.0 1.0 (x / 100.0)

/-- The units of angle and their size in degrees. -/
def angleUnits : List (List Char × Float) :=
  [("deg".toList, 1.0), ("grad".toList, 0.9), ("rad".toList, 180.0 / 3.14159265358979323846),
   ("turn".toList, 360.0)]

/-- A hue in degrees. Without a unit the number counts degrees. -/
def readHue? (cs : List Char) : Option Float :=
  let unit := angleUnits.findSome? fun (unit, factor) =>
    (stripSuffix? unit cs).map fun number => (number, factor)
  match unit with
  | some (number, factor) => (readFloat? (trimBlanks number)).map (· * factor)
  | none => readFloat? cs

/-- Channels of a hue in degrees, a saturation and a lightness between zero and one. -/
def ofHsl (hue saturation lightness : Float) : UInt8 × UInt8 × UInt8 :=
  let chroma := (1.0 - (2.0 * lightness - 1.0).abs) * saturation
  let sector := cyclicRemainder hue 360.0 / 60.0
  let x := chroma * (1.0 - (remainder sector 2.0 - 1.0).abs)
  let (r, g, b) : Float × Float × Float := match sector.toUInt32.toNat with
    | 0 => (chroma, x, 0.0)
    | 1 => (x, chroma, 0.0)
    | 2 => (0.0, chroma, x)
    | 3 => (0.0, x, chroma)
    | 4 => (x, 0.0, chroma)
    | _ => (chroma, 0.0, x)
  let base := lightness - chroma / 2.0
  let level (v : Float) : UInt8 := toByte ((v + base) * 255.0)
  (level r, level g, level b)

/-- The opacity of a call, full where none is written. -/
def Components.alpha? (c : Components) : Option Float32 :=
  match c.alpha with
  | some text => readAlpha? text
  | none => some 1.0

def ofRgbArguments? (format : ColorFormat) (args : List Char) : Option Color := do
  let c ← Components.ofText? args
  let r ← readChannel? c.first
  let g ← readChannel? c.second
  let b ← readChannel? c.third
  return ofChannels r g b (← c.alpha?) format

def ofHslArguments? (format : ColorFormat) (args : List Char) : Option Color := do
  let c ← Components.ofText? args
  let h ← readHue? c.first
  let s ← readShare? c.second
  let l ← readShare? c.third
  let (r, g, b) := ofHsl h s l
  return ofChannels r g b (← c.alpha?) format

/-- A call of one of the four colour functions, in lower case. -/
def ofCall? (lower : List Char) : Option Color :=
  match callArguments? "rgb".toList lower with
  | some args => ofRgbArguments? .rgb args
  | none =>
  match callArguments? "rgba".toList lower with
  | some args => ofRgbArguments? .rgba args
  | none =>
  match callArguments? "hsl".toList lower with
  | some args => ofHslArguments? .hsl args
  | none =>
  match callArguments? "hsla".toList lower with
  | some args => ofHslArguments? .hsla args
  | none => none

/-- Read a colour in any form. -/
def read? (text : List Char) : Option Color :=
  let text := trimBlanks text
  if text.head? = some '#' then ofHex? text
  else
    let lower := lowerAscii text
    if lower = "transparent".toList then some (ofChannels 0 0 0 0.0 .named)
    else
      match ofCall? lower with
      | some c => some c
      | none => ofKeyword? (String.ofList lower)

def ofText? (s : String) : Option Color := read? s.toList

/-- Whether a text is a colour in any form. -/
def isColor (s : String) : Bool := (ofText? s).isSome

end Color

end StyleVars
