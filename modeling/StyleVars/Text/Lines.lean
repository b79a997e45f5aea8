import StyleVars.Text.Excerpt

/-!
# Lines and positions

A position names a place by line and character, both from zero; a character is one Unicode scalar
value, however many bytes it takes. The table of lines turns byte offsets of a text into positions.
Offsets past the end stand for the end, and an offset inside a character stands after it.
-/

namespace StyleVars

structure Position where
  line : Nat
  character : Nat
deriving Repr, DecidableEq

/-- The numbers of a position are below this where they are stored in 32 bits. -/
def positionLimit : Nat := 4294967296

/-- A stretch of text between two positions. -/
structure Range where
  start : Position
  stop : Position
deriving Repr, DecidableEq

/-- The lines of a text in order, each without its line feed; there is at least one. -/
structure LineTable where
  first : Excerpt
  more : List Excerpt
deriving Repr, DecidableEq

namespace LineTable

/-- The lines of `cs`, whose first character stands at `start`. -/
def ofChars (start : Nat) : List Char → LineTable
  | [] => ⟨⟨start, []⟩, []⟩
  | c :: cs =>
    let rest := ofChars (start + c.utf8Size) cs
    if c = '\n' then ⟨⟨start, []⟩, rest.first :: rest.more⟩
    else ⟨⟨start, c :: rest.first.chars⟩, rest.more⟩

def ofString (s : String) : LineTable := ofChars 0 s.toList

def lines (t : LineTable) : List Excerpt := t.first :: t.more

def count (t : LineTable) : Nat := t.lines.length

/-- How many of the characters, the first of which stands at `start`, start before `offset`. -/
def startedBefore (offset : Nat) : Nat → List Char → Nat
  | _, [] => 0
  | start, c :: cs =>
    if start < offset then startedBefore offset (start + c.utf8Size) cs + 1 else 0

/-- The position of `offset`, which does not stand before the line `l`; `l` has number `n` and
`later` holds the lines after it. -/
def locate (offset : Nat) (n : Nat) (l : Excerpt) : List Excerpt → Position
  | [] => ⟨n, startedBefore offset l.start l.chars⟩
  | next :: later =>
    if offset < next.start then ⟨n, startedBefore offset l.start l.chars⟩
    else locate offset (n + 1) next later

/-- The position of an offset. Its line and character are cast to 32 bits where they are stored,
which loses nothing in a text of fewer than `positionLimit` characters. -/
def position (t : LineTable) (offset : Nat) : Position := locate offset 0 t.first t.more

def range (t : LineTable) (start stop : Nat) : Range := ⟨t.position start, t.position stop⟩

/-- The range that an excerpt of the text covers. -/
def rangeOf (t : LineTable) (e : Excerpt) : Range := t.range e.start e.stop

/-- The text of the line `n`, without carriage returns at its end. -/
def lineText? (t : LineTable) (n : Nat) : Option String :=
  t.lines[n]?.map fun l => String.ofList (dropTrailing (· == '\r') l.chars)

end LineTable

end StyleVars
