/-!
# Globs

A glob is a list of tokens that together describe the bytes of a path. `?` stands for one byte and
`*` for any bytes, slashes included. `**` stands for whole directories where it is bounded by
slashes or by the ends of the glob. Brackets list bytes, and braces list alternatives.
-/

namespace StyleVars

inductive GlobToken where
  | literal (c : Char)
  /-- One byte. -/
  | anyByte
  /-- Any bytes. -/
  | anyBytes
  /-- Directories at the start: nothing, a slash, or anything that ends in a slash. -/
  | leadingDirectories
  /-- A slash and anything after it. -/
  | trailingDirectories
  /-- A slash, or anything that starts and ends in one. -/
  | innerDirectories
  /-- One byte inside or outside the ranges. -/
  | oneOf (negated : Bool) (ranges : List (Char × Char))
  | alternatives (branches : List (List GlobToken))

/-- A glob with the text that it was read from. -/
structure Glob where
  text : String
  tokens : List GlobToken

/-- Why a text is not a glob. -/
inductive GlobFault where
  | unclosedClass
  | invalidRange (first last : Char)
  | unclosedGroup
  | unopenedGroup
  | danglingEscape
deriving Repr, DecidableEq

def GlobFault.message : GlobFault → String
  | .unclosedClass => "unclosed character class; missing ']'"
  | .invalidRange first last =>
    "invalid range; '" ++ first.toString ++ "' > '" ++ last.toString ++ "'"
  | .unclosedGroup =>
    "unclosed alternate group; missing '\x7d' (maybe escape '\x7b' with '[\x7b]'?)"
  | .unopenedGroup =>
    "unopened alternate group; missing '\x7b' (maybe escape '\x7d' with '[\x7d]'?)"
  | .danglingEscape => "dangling '\\'"

end StyleVars
