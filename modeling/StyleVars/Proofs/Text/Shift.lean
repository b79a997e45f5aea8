import StyleVars.Text.Excerpt
import StyleVars.Text.Name
import StyleVars.Text.Nesting

/-!
# Excerpts that are moved

A text that is read behind another one has all its offsets raised by the size of that one. Readers
look at the characters of an excerpt and carry its offset along, so whatever they find in a moved
excerpt is what they find in the excerpt itself, moved.
-/

namespace StyleVars

namespace Excerpt

/-- The excerpt, `n` bytes further on. -/
def shift (n : Nat) (e : Excerpt) : Excerpt := ⟨n + e.start, e.chars⟩

variable (n : Nat) (e : Excerpt)

@[simp] theorem start_shift : (e.shift n).start = n + e.start := rfl

@[simp] theorem chars_shift : (e.shift n).chars = e.chars := rfl

@[simp] theorem stop_shift : (e.shift n).stop = n + e.stop := Nat.add_assoc _ _ _

@[simp] theorem isEmpty_shift : (e.shift n).isEmpty = e.isEmpty := rfl

@[simp] theorem shift_zero : e.shift 0 = e := by
  rw [shift, Nat.zero_add]

theorem shift_mk (start : Nat) (cs : List Char) : shift n ⟨start, cs⟩ = ⟨n + start, cs⟩ := rfl

@[simp] theorem splitWhile_shift (p : Char → Bool) :
    (e.shift n).splitWhile p = ((e.splitWhile p).1.shift n, (e.splitWhile p).2.shift n) := by
  simp only [splitWhile, shift, Nat.add_assoc]

@[simp] theorem dropWhile_shift (p : Char → Bool) :
    (e.shift n).dropWhile p = (e.dropWhile p).shift n := by
  rw [dropWhile, splitWhile_shift, dropWhile]

@[simp] theorem skip?_shift (lit : List Char) :
    (e.shift n).skip? lit = (e.skip? lit).map (shift n) := by
  rw [skip?, skip?, chars_shift, start_shift]
  split
  · rw [Option.map_some, shift_mk, Nat.add_assoc]
  · rfl

@[simp] theorem upTo_shift (rest : Excerpt) :
    (e.shift n).upTo (rest.shift n) = (e.upTo rest).shift n := rfl

@[simp] theorem trimEnd_shift : (e.shift n).trimEnd = e.trimEnd.shift n := rfl

@[simp] theorem trim_shift : (e.shift n).trim = e.trim.shift n := by
  rw [trim, dropWhile_shift, trimEnd_shift, trim]

/-! ## Names -/

@[simp] theorem readVariableName?_shift :
    (e.shift n).readVariableName? = e.readVariableName?.map (Prod.map (shift n) (shift n)) := by
  rw [readVariableName?, skip?_shift, readVariableName?]
  cases e.skip? ['-', '-'] with
  | none => rfl
  | some after =>
    simp only [Option.map_some, dropWhile_shift, chars_shift, upTo_shift]
    split
    · rfl
    · rfl

@[simp] theorem readOrdinaryName?_shift :
    (e.shift n).readOrdinaryName? = e.readOrdinaryName?.map (Prod.map (shift n) (shift n)) := by
  have hafter : ((e.shift n).skip? ['-']).getD (e.shift n) = ((e.skip? ['-']).getD e).shift n := by
    rw [skip?_shift, Option.getD_map]
  rw [readOrdinaryName?, readOrdinaryName?]
  simp only [hafter, chars_shift, dropWhile_shift, upTo_shift]
  split
  · rfl
  · split
    · rfl
    · rfl

/-! ## Quotes and parentheses -/

theorem splitTop_go_add (isSeparator : Char → Bool) (nesting : Nesting) (start : Nat)
    (cs : List Char) :
    splitTop.go isSeparator nesting (n + start) cs =
      (splitTop.go isSeparator nesting start cs).map (shift n) := by
  induction cs generalizing nesting start with
  | nil => rfl
  | cons c cs ih =>
    rw [splitTop.go, splitTop.go, Nat.add_assoc, ih, ih]
    split
    · rfl
    · cases splitTop.go isSeparator (nesting.step c) (start + c.utf8Size) cs with
      | nil => rfl
      | cons piece pieces => rfl

@[simp] theorem splitTop_shift (isSeparator : Char → Bool) :
    (e.shift n).splitTop isSeparator = (e.splitTop isSeparator).map (shift n) :=
  splitTop_go_add n isSeparator .top e.start e.chars

end Excerpt

end StyleVars
