import StyleVars.Text.Excerpt

/-!
# Comments

A comment runs from `/*` to the next `*/`, or to the end of the text. Before a sheet is read its
comments are blanked: each of their bytes becomes a space, except that line feeds stay. What is left
stands where it stood, so offsets into the blanked text are offsets into the text itself.
-/

namespace StyleVars

namespace Comment

/-- The spaces that take the place of a character of a comment. -/
def blankChar (c : Char) : List Char :=
  if c = '\n' then ['\n'] else List.replicate c.utf8Size ' '

/-- Blank the comments of a text, the start of which lies inside a comment or not. -/
def blankFrom : Bool → List Char → List Char
  | _, [] => []
  | false, '/' :: '*' :: rest => ' ' :: ' ' :: blankFrom true rest
  | false, c :: rest => c :: blankFrom false rest
  | true, '*' :: '/' :: rest => ' ' :: ' ' :: blankFrom false rest
  | true, c :: rest => blankChar c ++ blankFrom true rest

/-- Blank all comments of a text. -/
def blank (cs : List Char) : List Char := blankFrom false cs

/-- The offset at which a comment starts that never ends, given that of the comment which is open at
the start of the text. -/
def openFrom : Option Nat → Nat → List Char → Option Nat
  | inside, _, [] => inside
  | none, offset, '/' :: '*' :: rest => openFrom (some offset) (offset + 2) rest
  | none, offset, c :: rest => openFrom none (offset + c.utf8Size) rest
  | some _, offset, '*' :: '/' :: rest => openFrom none (offset + 2) rest
  | some start, offset, c :: rest => openFrom (some start) (offset + c.utf8Size) rest

/-- The offset at which a comment starts that never ends. -/
def unterminated? (cs : List Char) : Option Nat := openFrom none 0 cs

end Comment

end StyleVars
