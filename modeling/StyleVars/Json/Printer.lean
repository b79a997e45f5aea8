import StyleVars.Json.Basic

/-!
# Writing JSON

A value is written either on one line without blanks or spread over lines, indented by two blanks
for each open container. Only quotes, backslashes and control characters are escaped.
-/

namespace StyleVars

namespace Json

/-- The text of a character inside a string. -/
def escaped (c : Char) : List Char :=
  if c = '"' then ['\\', '"']
  else if c = '\\' then ['\\', '\\']
  else if c = '\x08' then ['\\', 'b']
  else if c = '\x0c' then ['\\', 'f']
  else if c = '\n' then ['\\', 'n']
  else if c = '\r' then ['\\', 'r']
  else if c = '\t' then ['\\', 't']
  else if c.toNat < 0x20 then
    ['\\', 'u', '0', '0', Nat.digitChar (c.toNat / 16), Nat.digitChar (c.toNat % 16)]
  else [c]

def quoted (s : String) : String :=
  String.ofList ('"' :: (s.toList.flatMap escaped ++ ['"']))

/-- A string without a value is written as an empty one. -/
def quotedKey (s : Option String) : String := quoted (s.getD "")

def numberText (n : JsonNumber) : String :=
  (if n.negative then "-" else "") ++ n.mantissa.repr ++
    (if n.exponent = 0 then "" else "e" ++ toString n.exponent)

mutual

/-- Write a value on one line. -/
def compact : Json → String
  | .null => "null"
  | .bool b => if b then "true" else "false"
  | .num n => numberText n
  | .str s => quotedKey s
  | .arr items => "[" ++ String.intercalate "," (compactItems items) ++ "]"
  | .obj fields => "\x7b" ++ String.intercalate "," (compactFields fields) ++ "\x7d"

def compactItems : List Json → List String
  | [] => []
  | v :: rest => compact v :: compactItems rest

def compactFields : List (Option String × Json) → List String
  | [] => []
  | (k, v) :: rest => (quotedKey k ++ ":" ++ compact v) :: compactFields rest

end

/-- The start of a line inside `depth` open containers. -/
def indentation (depth : Nat) : String := String.ofList (List.replicate (2 * depth) ' ')

/-- Items on lines of their own between brackets. -/
def block (depth : Nat) (opening closing : String) (items : List String) : String :=
  if items.isEmpty then opening ++ closing
  else
    let lines := items.map fun item => "\n" ++ indentation (depth + 1) ++ item
    opening ++ String.intercalate "," lines ++ "\n" ++ indentation depth ++ closing

mutual

/-- Write a value over lines, inside `depth` open containers. -/
def pretty (depth : Nat) : Json → String
  | .null => "null"
  | .bool b => if b then "true" else "false"
  | .num n => numberText n
  | .str s => quotedKey s
  | .arr items => block depth "[" "]" (prettyItems (depth + 1) items)
  | .obj fields => block depth "\x7b" "\x7d" (prettyFields (depth + 1) fields)

def prettyItems (depth : Nat) : List Json → List String
  | [] => []
  | v :: rest => pretty depth v :: prettyItems depth rest

def prettyFields (depth : Nat) : List (Option String × Json) → List String
  | [] => []
  | (k, v) :: rest => (quotedKey k ++ ": " ++ pretty depth v) :: prettyFields depth rest

end

end Json

end StyleVars
