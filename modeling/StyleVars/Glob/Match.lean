import StyleVars.Glob.Basic
import StyleVars.Text.Split

/-!
# Matching globs

A glob matches a path when its tokens account for all bytes of the path. For each token the texts
that may be left after it are computed from those that may be left before it. All of them are ends
of the path, and they are kept in order of decreasing length without repetition.

Some globs are about the name of a file: those that give the whole name after any directories, and
those that end in an extension. They match no path without a file name, such as one that ends in a
parent reference, even where its bytes would fit. Globs that only say how the path ends, after any
bytes, are not about the name.
-/

namespace StyleVars

/-- The bytes of a text in UTF-8. -/
def utf8Bytes (cs : List Char) : List UInt8 := cs.flatMap String.utf8EncodeChar

namespace Glob

/-- Ends of one text, longest first. -/
abbrev Ends := List (List UInt8)

/-- All ends of a text, the text itself included. -/
def endsOf : List UInt8 → Ends
  | [] => [[]]
  | b :: bs => (b :: bs) :: endsOf bs

/-- The ends that are left after any number of bytes: all ends of the longest one. -/
def afterAny : Ends → Ends
  | [] => []
  | longest :: _ => endsOf longest

/-- The ends that are left after the bytes `bs`. -/
def afterBytes (bs : List UInt8) (ends : Ends) : Ends :=
  ends.filterMap fun e => if bs.isPrefixOf e then some (e.drop bs.length) else none

def afterSlash (ends : Ends) : Ends := afterBytes (utf8Bytes ['/']) ends

/-- The ends that are left after one byte that satisfies `p`. -/
def afterByte (p : UInt8 → Bool) (ends : Ends) : Ends :=
  ends.filterMap fun
    | [] => none
    | b :: bs => if p b then some bs else none

/-- The ends in either of two lists. -/
def union : Ends → Ends → Ends
  | [], ys => ys
  | x :: xs, ys =>
    ys.takeWhile (x.length < ·.length) ++
      x :: union xs ((ys.dropWhile (x.length < ·.length)).filter (·.length ≠ x.length))

/-- The ranges of bytes of a range of characters: its ends are taken byte by byte, and the range
lies between the last byte of the first and the first byte of the last. -/
def byteRanges (r : Char × Char) : List (UInt8 × UInt8) :=
  let lo := String.utf8EncodeChar r.1
  let hi := String.utf8EncodeChar r.2
  if r.1 = r.2 then lo.map fun b => (b, b)
  else
    lo.dropLast.map (fun b => (b, b)) ++ [(lo.getLast?.getD 0, hi.head?.getD 0)] ++
      (hi.drop 1).map fun b => (b, b)

/-- Whether a byte lies in one of the ranges. -/
def inClass (ranges : List (Char × Char)) (b : UInt8) : Bool :=
  (ranges.flatMap byteRanges).any fun r => r.1 ≤ b && b ≤ r.2

mutual

/-- Whether a token describes nothing at all, not even the empty text of its own accord: a group
without branches that describe something. -/
def isVoid : GlobToken → Bool
  | .alternatives branches => allVoid branches
  | _ => false

def branchVoid : List GlobToken → Bool
  | [] => true
  | t :: ts => isVoid t && branchVoid ts

def allVoid : List (List GlobToken) → Bool
  | [] => true
  | b :: bs => branchVoid b && allVoid bs

end

mutual

/-- The ends that are left after a token. -/
def afterToken : GlobToken → Ends → Ends
  | .literal c, ends => afterBytes (utf8Bytes [c]) ends
  | .anyByte, ends => afterByte (fun _ => true) ends
  | .anyBytes, ends => afterAny ends
  | .leadingDirectories, ends => union ends (afterSlash (afterAny ends))
  | .trailingDirectories, ends => afterAny (afterSlash ends)
  | .innerDirectories, ends =>
    union (afterSlash ends) (afterSlash (afterAny (afterSlash ends)))
  | .oneOf negated ranges, ends => afterByte (fun b => inClass ranges b != negated) ends
  | .alternatives branches, ends =>
    if allVoid branches then ends else afterBranches branches ends

/-- The ends that are left after all tokens of a list. -/
def afterTokens : List GlobToken → Ends → Ends
  | [], ends => ends
  | t :: ts, ends => afterTokens ts (afterToken t ends)

/-- The ends that are left after one of the branches that are not void. -/
def afterBranches : List (List GlobToken) → Ends → Ends
  | [], _ => []
  | b :: bs, ends =>
    if branchVoid b then afterBranches bs ends
    else union (afterTokens b ends) (afterBranches bs ends)

end

/-- The character of a token that stands for one. -/
def literal? : GlobToken → Option Char
  | .literal c => some c
  | _ => none

/-- The text that a list of tokens stands for, when all of them are literals. -/
def literalText? (tokens : List GlobToken) : Option (List Char) := tokens.mapM literal?

/-- Whether the text is an extension: a point with no further point or slash after it. -/
def isExtension : List Char → Bool
  | '.' :: rest => !rest.contains '.' && !rest.contains '/'
  | _ => false

/-- Whether the tokens end in literals that are an extension. -/
def endsInExtension : List GlobToken → Bool
  | [] => false
  | t :: ts => ((literalText? (t :: ts)).map isExtension).getD false || endsInExtension ts

/-- Whether tokens that follow any bytes, or nothing, are about the name of a file. -/
def namesExtension (tokens : List GlobToken) : Bool :=
  match tokens with
  | .anyBytes :: rest =>
    match literalText? rest with
    | some text => isExtension text
    | none => endsInExtension rest
  | _ => endsInExtension tokens

/-- Whether the glob is about the name of a file. -/
def namesFile (tokens : List GlobToken) : Bool :=
  match tokens with
  | .leadingDirectories :: rest =>
    match literalText? rest with
    | some text => !text.isEmpty && !text.contains '/'
    | none => namesExtension rest
  | _ => (literalText? tokens).isNone && namesExtension tokens

/-- Whether a path has a file name: its last component is there and is no parent reference. -/
def hasFileName (text : List Char) : Bool :=
  let last := (splitAtEach '/' text).getLast?
  last ≠ some [] && last ≠ some ['.', '.']

/-- Whether the bytes of the text are those that the tokens describe. Directories alone describe
every text. -/
def describes (tokens : List GlobToken) (text : List Char) : Bool :=
  match tokens with
  | [.leadingDirectories] => true
  | _ => (afterTokens tokens [utf8Bytes text]).contains []

/-- Whether the glob matches the path with this text. -/
def isMatch (g : Glob) (text : String) : Bool :=
  describes g.tokens text.toList && (!namesFile g.tokens || hasFileName text.toList)

end Glob

end StyleVars
