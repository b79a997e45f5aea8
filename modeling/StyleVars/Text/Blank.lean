/-!
# Blank characters

Blanks are the characters with the property White_Space: the ASCII blanks, the next-line and
no-break spaces, and the spaces and separators of the general punctuation and CJK blocks. The zero
width space and the byte order mark are not blanks.
-/

namespace StyleVars

/-- Whether the code point `n` lies in one of the closed ranges `ranges`. -/
def inRanges (ranges : List (Nat × Nat)) (n : Nat) : Bool :=
  ranges.any fun r => r.1 ≤ n && n ≤ r.2

/-- Code points of the blank characters. -/
def blankRanges : List (Nat × Nat) :=
  [(0x9, 0xd), (0x20, 0x20), (0x85, 0x85), (0xa0, 0xa0), (0x1680, 0x1680), (0x2000, 0x200a),
   (0x2028, 0x2029), (0x202f, 0x202f), (0x205f, 0x205f), (0x3000, 0x3000)]

def isBlank (c : Char) : Bool := inRanges blankRanges c.toNat

/-- Remove the longest run of characters satisfying `p` from the end. -/
def dropTrailing (p : Char → Bool) (cs : List Char) : List Char :=
  (cs.reverse.dropWhile p).reverse

/-- Remove the blanks at both ends. -/
def trimBlanks (cs : List Char) : List Char := dropTrailing isBlank (cs.dropWhile isBlank)

/-- Remove the blanks at both ends of a string. -/
def trim (s : String) : String := String.ofList (trimBlanks s.toList)

/-- The maximal runs of characters that are not blank. -/
def blankSeparated (cs : List Char) : List (List Char) :=
  go cs []
where
  go : List Char → List Char → List (List Char)
    | [], word => if word.isEmpty then [] else [word.reverse]
    | c :: rest, word =>
      if isBlank c then
        if word.isEmpty then go rest [] else word.reverse :: go rest []
      else go rest (c :: word)

end StyleVars
