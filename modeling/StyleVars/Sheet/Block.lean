import StyleVars.Text.Excerpt
import StyleVars.Text.Letter

/-!
# Blocks

The braces of a sheet divide it into chunks. A brace after a prelude that starts with `@` opens a
group, such as `@media`, whose rules count like those outside; a few at-rules hold declarations and
count as rules themselves. Any other opening brace starts the body of a rule, which runs to the
brace that closes it.

Inside the body of a rule nested blocks are left out, together with their preludes. What is left are
the pieces that hold the declarations of the rule.
-/

namespace StyleVars

/-- The text before the brace that closes a block, `depth` further blocks being open at its start,
and the text from that brace on; the latter is empty when the block is never closed. -/
def splitBlock : Nat → List Char → List Char × List Char
  | _, [] => ([], [])
  | depth, c :: cs =>
    if c = '}' ∧ depth = 0 then ([], c :: cs)
    else
      let inner := if c = '{' then depth + 1 else if c = '}' then depth - 1 else depth
      let split := splitBlock inner cs
      (c :: split.1, split.2)

theorem splitBlock_append (depth : Nat) (cs : List Char) :
    (splitBlock depth cs).1 ++ (splitBlock depth cs).2 = cs := by
  induction cs generalizing depth with
  | nil => simp [splitBlock]
  | cons c cs ih =>
    unfold splitBlock
    split
    · simp
    · simp [ih]

theorem length_splitBlock_snd_le (depth : Nat) (cs : List Char) :
    (splitBlock depth cs).2.length ≤ cs.length := by
  have h := congrArg List.length (splitBlock_append depth cs)
  simp only [List.length_append] at h
  omega

/-- The at-rules whose block is a list of declarations. -/
def declaringRules : List String := ["font-face", "page", "property", "counter-style"]

/-- Whether an at-rule with this prelude holds declarations. -/
def holdsDeclarations (header : List Char) : Bool :=
  let name := (header.dropWhile (· == '@')).takeWhile fun c => !(isBlank c || c == '(')
  declaringRules.any fun rule => rule.toList == lowerAscii name

/-- Whether a block with this prelude is a group of rules. -/
def opensGroup (header : List Char) : Bool :=
  header.head? == some '@' && !holdsDeclarations header

/-- A part of a sheet that ends at a semicolon or a brace, or at the end of the text. -/
inductive Chunk where
  /-- Text before a semicolon outside of rules. -/
  | statement (text : Excerpt)
  /-- The start of a group. -/
  | group
  /-- A closing brace outside of rules, at this offset. -/
  | close (offset : Nat)
  /-- A rule with the offset of its opening brace. -/
  | rule (selector : Excerpt) (brace : Nat) (body : Excerpt) (closed : Bool)
  /-- Text after the last semicolon or brace. -/
  | tail (text : Excerpt)
deriving Repr, DecidableEq

/-- Whether the character ends a chunk. -/
def endsChunk (c : Char) : Bool := c == '{' || c == '}' || c == ';'

namespace Excerpt

/-- Divide a sheet into its chunks. -/
def chunks (e : Excerpt) : List Chunk :=
  let before := (e.splitWhile fun c => !endsChunk c).1.trim
  let rest := e.dropWhile fun c => !endsChunk c
  match h : rest.chars with
  | [] => [.tail before]
  | c :: cs =>
    have hlt : cs.length < e.chars.length := by
      have hle := length_dropWhile_le (fun c => !endsChunk c) e
      change rest.chars.length ≤ _ at hle
      rw [h] at hle
      exact hle
    let after : Excerpt := ⟨rest.start + c.utf8Size, cs⟩
    if c = ';' then .statement before :: after.chunks
    else if c = '}' then .close rest.start :: after.chunks
    else if opensGroup before.chars then .group :: after.chunks
    else
      let body : Excerpt := ⟨after.start, (splitBlock 0 cs).1⟩
      have hle := length_splitBlock_snd_le 0 cs
      match hrest : (splitBlock 0 cs).2 with
      | [] => [.rule before rest.start body false, .tail ⟨body.stop, []⟩]
      | brace :: later =>
        have : later.length < e.chars.length := by
          rw [hrest] at hle
          exact Nat.lt_of_lt_of_le hle (Nat.le_of_lt hlt)
        .rule before rest.start body true ::
          (⟨body.stop + brace.utf8Size, later⟩ : Excerpt).chunks
termination_by e.chars.length

/-- The pieces of the body of a rule outside nested blocks. Text between the last semicolon and a
nested block is the prelude of that block. -/
def pieces (e : Excerpt) : List Excerpt :=
  let flat := (e.splitWhile (· != '{')).1
  let rest := e.dropWhile (· != '{')
  match h : rest.chars with
  | [] => [flat]
  | c :: cs =>
    have hlt : cs.length < e.chars.length := by
      have hle := length_dropWhile_le (· != '{') e
      change rest.chars.length ≤ _ at hle
      rw [h] at hle
      exact hle
    let settled : Excerpt := ⟨flat.start, dropTrailing (· != ';') flat.chars⟩
    let blockStart := rest.start + c.utf8Size
    have hle := length_splitBlock_snd_le 0 cs
    match hrest : (splitBlock 0 cs).2 with
    | [] => [settled]
    | brace :: later =>
      have : later.length < e.chars.length := by
        rw [hrest] at hle
        exact Nat.lt_of_lt_of_le hle (Nat.le_of_lt hlt)
      settled ::
        (⟨blockStart + byteSize (splitBlock 0 cs).1 + brace.utf8Size, later⟩ : Excerpt).pieces
termination_by e.chars.length

/-- The offset of the first nested block in the body of a rule. -/
def firstNested? (e : Excerpt) : Option Nat :=
  let rest := e.dropWhile (· != '{')
  if rest.isEmpty then none else some rest.start

end Excerpt

end StyleVars
