import StyleVars.Text.Blank

/-!
# Excerpts

An excerpt is a stretch of a text together with the byte offset at which it starts. Every reader of
the library takes an excerpt and gives excerpts back, so that whatever is found in a text still
knows where it stands. Offsets count the bytes of UTF-8.
-/

namespace StyleVars

/-- Number of bytes that the characters take in UTF-8. -/
def byteSize : List Char → Nat
  | [] => 0
  | c :: cs => c.utf8Size + byteSize cs

@[simp] theorem byteSize_nil : byteSize [] = 0 := rfl

@[simp] theorem byteSize_cons (c : Char) (cs : List Char) :
    byteSize (c :: cs) = c.utf8Size + byteSize cs := rfl

@[simp] theorem byteSize_append (xs ys : List Char) :
    byteSize (xs ++ ys) = byteSize xs + byteSize ys := by
  induction xs with
  | nil => simp
  | cons c cs ih => simp [ih, Nat.add_assoc]

/-- A half-open range of byte offsets. -/
structure Span where
  start : Nat
  stop : Nat
deriving Repr, DecidableEq

structure Excerpt where
  start : Nat
  chars : List Char
deriving Repr, DecidableEq

namespace Excerpt

def ofString (s : String) : Excerpt := ⟨0, s.toList⟩

/-- Offset just past the last character. -/
def stop (e : Excerpt) : Nat := e.start + byteSize e.chars

def span (e : Excerpt) : Span := ⟨e.start, e.stop⟩

def text (e : Excerpt) : String := String.ofList e.chars

def isEmpty (e : Excerpt) : Bool := e.chars.isEmpty

/-- The longest beginning of `e` whose characters satisfy `p`, and the rest. -/
def splitWhile (p : Char → Bool) (e : Excerpt) : Excerpt × Excerpt :=
  (⟨e.start, e.chars.takeWhile p⟩,
   ⟨e.start + byteSize (e.chars.takeWhile p), e.chars.dropWhile p⟩)

def dropWhile (p : Char → Bool) (e : Excerpt) : Excerpt := (e.splitWhile p).2

/-- The text after `lit`, when `e` starts with `lit`. -/
def skip? (lit : List Char) (e : Excerpt) : Option Excerpt :=
  if lit.isPrefixOf e.chars then
    some ⟨e.start + byteSize lit, e.chars.drop lit.length⟩
  else none

/-- The part of `e` that stands before its own rest `rest`. -/
def upTo (e rest : Excerpt) : Excerpt :=
  ⟨e.start, e.chars.take (e.chars.length - rest.chars.length)⟩

def trimEnd (e : Excerpt) : Excerpt := ⟨e.start, dropTrailing isBlank e.chars⟩

/-- Remove the blanks at both ends. A blank excerpt shrinks to its own end. -/
def trim (e : Excerpt) : Excerpt := (e.dropWhile isBlank).trimEnd

theorem length_dropWhile_le (p : Char → Bool) (e : Excerpt) :
    (e.dropWhile p).chars.length ≤ e.chars.length :=
  (List.dropWhile_sublist p).length_le

theorem length_skip? {lit : List Char} {e rest : Excerpt} (h : e.skip? lit = some rest) :
    rest.chars.length + lit.length = e.chars.length := by
  unfold skip? at h
  split at h
  · rename_i hp
    have hle := (List.isPrefixOf_iff_prefix.mp hp).length_le
    cases h
    simp only [List.length_drop]
    omega
  · cases h

end Excerpt

end StyleVars
