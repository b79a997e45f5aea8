import StyleVars.Json.Basic

/-!
# Reading JSON

The grammar is strict: no comments, no trailing commas, no leading zeros, no bare control characters
in strings, and nothing but blanks after the value. Text is divided into tokens first. The tokens
then build the value with the containers that are still open held in a list, so that no nesting is
too deep.
-/

namespace StyleVars

namespace Json

inductive Token where
  | openArray
  | closeArray
  | openObject
  | closeObject
  | comma
  | colon
  | str (s : Option String)
  | num (n : JsonNumber)
  | null
  | bool (b : Bool)

def isSpace (c : Char) : Bool := c == ' ' || c == '\t' || c == '\n' || c == '\r'

def hexDigit? (c : Char) : Option Nat :=
  if c.isDigit then some (c.toNat - '0'.toNat)
  else if 'a' ≤ c ∧ c ≤ 'f' then some (c.toNat - 'a'.toNat + 10)
  else if 'A' ≤ c ∧ c ≤ 'F' then some (c.toNat - 'A'.toNat + 10)
  else none

/-- The character that a one-letter escape stands for. -/
def escape? : Char → Option Char
  | '"' => some '"'
  | '\\' => some '\\'
  | '/' => some '/'
  | 'b' => some '\x08'
  | 'f' => some '\x0c'
  | 'n' => some '\n'
  | 'r' => some '\r'
  | 't' => some '\t'
  | _ => none

/-- The code units of a string up to its closing quote, and what follows the quote. A numbered
escape gives one unit of sixteen bits, any other character its code point. -/
def units? : List Char → Option (List Nat × List Char)
  | [] => none
  | '"' :: rest => some ([], rest)
  | '\\' :: 'u' :: a :: b :: c :: d :: rest => do
    let high := 16 * (← hexDigit? a) + (← hexDigit? b)
    let low := 16 * (← hexDigit? c) + (← hexDigit? d)
    let unit := 256 * high + low
    let (units, after) ← units? rest
    return (unit :: units, after)
  | '\\' :: e :: rest => do
    let c ← escape? e
    let (units, after) ← units? rest
    return (c.toNat :: units, after)
  | c :: rest => do
    if c.toNat < 0x20 || c == '\\' then none
    let (units, after) ← units? rest
    return (c.toNat :: units, after)

/-- The characters that code units stand for. A unit of the high half of a pair must be followed by
one of the low half. -/
def pairUnits? : List Nat → Option (List Char)
  | [] => some []
  | u :: units =>
    if 0xd800 ≤ u ∧ u < 0xdc00 then
      match units with
      | v :: rest =>
        if 0xdc00 ≤ v ∧ v < 0xe000 then
          (pairUnits? rest).map (Char.ofNat (0x10000 + (u - 0xd800) * 1024 + (v - 0xdc00)) :: ·)
        else none
      | [] => none
    else if 0xdc00 ≤ u ∧ u < 0xe000 then none
    else (pairUnits? units).map (Char.ofNat u :: ·)

/-- A number without its sign, and what follows it. -/
def number? (negative : Bool) (cs : List Char) : Option (JsonNumber × List Char) := do
  let whole := cs.takeWhile Char.isDigit
  if whole.isEmpty || (whole.head? == some '0' && whole.length != 1) then none
  let (fraction, rest) ← match cs.dropWhile Char.isDigit with
    | '.' :: more =>
      let digits := more.takeWhile Char.isDigit
      if digits.isEmpty then none else some (digits, more.dropWhile Char.isDigit)
    | more => some ([], more)
  let mantissa := Numeral.digitsValue (whole ++ fraction)
  match rest with
  | mark :: more =>
    if mark = 'e' ∨ mark = 'E' then
      let (down, tail) := match more with
        | '-' :: ds => (true, ds)
        | '+' :: ds => (false, ds)
        | ds => (false, ds)
      let digits := tail.takeWhile Char.isDigit
      if digits.isEmpty then none
      let n : Int := Numeral.digitsValue digits
      return (⟨negative, mantissa, (if down then -n else n) - fraction.length, false⟩,
        tail.dropWhile Char.isDigit)
    else return (⟨negative, mantissa, -fraction.length, fraction.isEmpty⟩, rest)
  | [] => return (⟨negative, mantissa, -fraction.length, fraction.isEmpty⟩, rest)

/-- The token that starts with the character `c`, which is not a blank, and what follows it. -/
def token? (c : Char) (cs : List Char) : Option (Token × List Char) :=
  match c with
  | '[' => some (.openArray, cs)
  | ']' => some (.closeArray, cs)
  | '{' => some (.openObject, cs)
  | '}' => some (.closeObject, cs)
  | ',' => some (.comma, cs)
  | ':' => some (.colon, cs)
  | '"' => (units? cs).map fun (units, rest) => (.str ((pairUnits? units).map String.ofList), rest)
  | '-' => (number? true cs).map fun (n, rest) => (.num n, rest)
  | 'n' => word "ull" .null
  | 't' => word "rue" (.bool true)
  | 'f' => word "alse" (.bool false)
  | _ => (number? false (c :: cs)).map fun (n, rest) => (.num n, rest)
where
  word (letters : String) (t : Token) : Option (Token × List Char) :=
    if letters.toList.isPrefixOf cs then some (t, cs.drop letters.length) else none

/-- The tokens of a text. Each token takes at least the character it starts with. -/
def tokens? (cs : List Char) : Option (List Token) :=
  match cs with
  | [] => some []
  | c :: rest =>
    if isSpace c then tokens? rest
    else
      match token? c rest with
      | none => none
      | some (t, after) =>
        if after.length ≤ rest.length then (tokens? after).map (t :: ·) else none
termination_by cs.length

/-- A container that is still open, with what it holds so far in reverse. -/
inductive Frame where
  | array (items : List Json)
  | object (fields : List (Option String × Json)) (key : Option String)

/-- What may come next. -/
inductive Want where
  | value
  | itemOrEnd
  | key
  | keyOrEnd
  | colon
  | separator
  | nothing

/-- A value that is being built: the open containers, innermost first, and the finished value. -/
structure Builder where
  frames : List Frame
  want : Want
  result : Json

namespace Builder

def start : Builder := ⟨[], .value, .null⟩

/-- Put a finished value into the innermost open container. -/
def put (frames : List Frame) (v : Json) : Builder :=
  match frames with
  | [] => ⟨[], .nothing, v⟩
  | .array items :: rest => ⟨.array (v :: items) :: rest, .separator, .null⟩
  | .object fields key :: rest => ⟨.object ((key, v) :: fields) none :: rest, .separator, .null⟩

/-- Read a token where a value is wanted. -/
def value? (frames : List Frame) : Token → Option Builder
  | .openArray => some ⟨.array [] :: frames, .itemOrEnd, .null⟩
  | .openObject => some ⟨.object [] none :: frames, .keyOrEnd, .null⟩
  | .str s => some (put frames (.str s))
  | .num n => some (put frames (.num n))
  | .null => some (put frames .null)
  | .bool b => some (put frames (.bool b))
  | _ => none

/-- Close the innermost open container. -/
def close? (frames : List Frame) : Token → Option Builder
  | .closeArray =>
    match frames with
    | .array items :: rest => some (put rest (.arr items.reverse))
    | _ => none
  | .closeObject =>
    match frames with
    | .object fields _ :: rest => some (put rest (.obj fields.reverse))
    | _ => none
  | _ => none

/-- Read a token where a key is wanted. -/
def key? (frames : List Frame) : Token → Option Builder
  | .str s =>
    match frames with
    | .object fields _ :: rest => some ⟨.object fields s :: rest, .colon, .null⟩
    | _ => none
  | _ => none

def step? (b : Builder) (t : Token) : Option Builder :=
  match b.want with
  | .value => value? b.frames t
  | .itemOrEnd =>
    match t with
    | .closeArray => close? b.frames t
    | _ => value? b.frames t
  | .key => key? b.frames t
  | .keyOrEnd =>
    match t with
    | .closeObject => close? b.frames t
    | _ => key? b.frames t
  | .colon =>
    match t with
    | .colon => some { b with want := .value }
    | _ => none
  | .separator =>
    match t with
    | .comma =>
      match b.frames with
      | .array _ :: _ => some { b with want := .value }
      | .object _ _ :: _ => some { b with want := .key }
      | [] => none
    | _ => close? b.frames t
  | .nothing => none

def result? (b : Builder) : Option Json :=
  match b.want with
  | .nothing => some b.result
  | _ => none

end Builder

/-- Read a text that holds one value. -/
def read? (s : String) : Option Json := do
  let tokens ← tokens? s.toList
  let builder ← tokens.foldlM Builder.step? .start
  builder.result?

end Json

end StyleVars
