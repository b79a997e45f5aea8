import Mathlib.Data.List.DropRight
import Mathlib.Data.List.Infix
import StyleVars.Proofs.Value.Occurrence
import StyleVars.Value.Literal

/-!
# Colours are literals

Colours are read in one way and literals are recognized in another. The reader of colours takes a
text apart, and the patterns for literals look at how it begins or of which characters it is made.
Each form of a colour has its pattern, and whatever is read as a colour of that form has it. No
colour holds `var(`, because the only opening parenthesis that a colour may hold follows the name of
a colour function.
-/

namespace StyleVars

/-! ## Blanks around a text -/

theorem dropWhile_trimBlanks (cs : List Char) :
    (trimBlanks cs).dropWhile isBlank = trimBlanks cs := by
  obtain ⟨after, hafter⟩ := dropTrailing_append isBlank (cs.dropWhile isBlank)
  have hhead := List.head?_dropWhile_not isBlank cs
  rw [trimBlanks]
  cases htrim : dropTrailing isBlank (cs.dropWhile isBlank) with
  | nil => rfl
  | cons c rest =>
    rw [hafter, htrim] at hhead
    have hc : isBlank c = false := hhead
    simp [hc]

theorem trimBlanks_trimBlanks (cs : List Char) : trimBlanks (trimBlanks cs) = trimBlanks cs := by
  have hdrop := dropWhile_trimBlanks cs
  rw [trimBlanks, hdrop]
  exact List.rdropWhile_idempotent isBlank (cs.dropWhile isBlank)

theorem infix_dropWhile {needle cs : List Char} (hvisible : ∀ c ∈ needle, isBlank c = false)
    (h : needle <:+: cs) : needle <:+: cs.dropWhile isBlank := by
  induction cs with
  | nil => exact h
  | cons c cs ih =>
    rw [List.dropWhile_cons]
    split
    · rename_i hblank
      rcases List.infix_cons_iff.mp h with hstart | hlater
      · rcases List.prefix_cons_iff.mp hstart with rfl | ⟨rest, rfl, _⟩
        · exact List.nil_infix
        · rw [hvisible c List.mem_cons_self] at hblank
          cases hblank
      · exact ih hlater
    · exact h

/-- A text without blanks that occurs in another still occurs when that is trimmed. -/
theorem infix_trimBlanks {needle cs : List Char} (hvisible : ∀ c ∈ needle, isBlank c = false)
    (h : needle <:+: cs) : needle <:+: trimBlanks cs := by
  rw [trimBlanks, dropTrailing, ← List.reverse_infix, List.reverse_reverse]
  apply infix_dropWhile
  · simpa using hvisible
  · exact List.reverse_infix.mpr (infix_dropWhile hvisible h)

/-! ## References -/

namespace Literal

theorem occurs_iff {needle cs : List Char} : occurs needle cs = true ↔ needle <:+: cs := by
  induction cs with
  | nil => simp [occurs]
  | cons c cs ih =>
    rw [occurs, Bool.or_eq_true, ih, List.isPrefixOf_iff_prefix, List.infix_cons_iff]

/-- What a reference begins with. -/
def opening : List Char := "var(".toList

theorem isBlank_opening : ∀ c ∈ opening, isBlank c = false := by
  have hall : opening.all (!isBlank ·) = true := by decide
  simpa using hall

/-- A text with a reference in it is no literal. -/
theorem isLiteral_eq_false_of_infix {cs : List Char} (h : opening <:+: cs) :
    isLiteral cs = false := by
  have hoccurs : occurs "var(".toList (trimBlanks cs) = true :=
    occurs_iff.mpr (infix_trimBlanks isBlank_opening h)
  rw [isLiteral, hoccurs]
  rfl

theorem not_infix_of_notMem {cs : List Char} (h : '(' ∉ cs) : ¬opening <:+: cs := by
  intro hinside
  exact h (hinside.subset (by decide))

end Literal

/-! ## Hexadecimal digits -/

namespace Color

open Literal

theorem mapM_hexDigit?_spec {digits : List Char} {values : List UInt8}
    (h : digits.mapM hexDigit? = some values) :
    values.length = digits.length ∧ ∀ c ∈ digits, (hexDigit? c).isSome := by
  induction digits generalizing values with
  | nil =>
    cases h
    exact ⟨rfl, by simp⟩
  | cons c digits ih =>
    simp only [List.mapM_cons, Option.bind_eq_bind, Option.bind_eq_some_iff] at h
    obtain ⟨value, hvalue, later, hlater, heq⟩ := h
    cases heq
    obtain ⟨hlength, hdigits⟩ := ih hlater
    refine ⟨congrArg (· + 1) hlength, ?_⟩
    refine List.forall_mem_cons.mpr ⟨?_, hdigits⟩
    rw [hvalue]
    rfl

theorem length_of_channels? {values : List UInt8} {channels : UInt8 × UInt8 × UInt8 × UInt8}
    (h : channels? values = some channels) : values.length ∈ [3, 4, 6, 8] := by
  unfold channels? at h
  split at h
  · simp
  · simp
  · simp
  · simp
  · cases h

/-- What is read as hexadecimal digits after `#` has the pattern for them. -/
theorem ofHex?_spec {digits : List Char} {c : Color} (h : ofHex? ('#' :: digits) = some c) :
    c.format = .hex ∧ isHexColor ('#' :: digits) = true ∧ '(' ∉ '#' :: digits := by
  simp only [ofHex?, Option.bind_eq_bind, Option.bind_eq_some_iff] at h
  obtain ⟨values, hvalues, channels, hchannels, heq⟩ := h
  obtain ⟨hlength, hdigits⟩ := mapM_hexDigit?_spec hvalues
  have hcount := length_of_channels? hchannels
  cases heq
  refine ⟨rfl, ?_, ?_⟩
  · rw [isHexColor, Bool.and_eq_true, List.all_eq_true, List.contains_iff_mem, ← hlength]
    exact ⟨hdigits, hcount⟩
  · intro hmem
    rcases List.mem_cons.mp hmem with heq | hdigit
    · cases heq
    · exact absurd (hdigits _ hdigit) (by decide)

/-! ## Calls -/

/-- The text of a call: a name and one pair of parentheses around the rest. -/
theorem callArguments?_spec {name cs args : List Char} (h : callArguments? name cs = some args) :
    ∃ inner, cs = name ++ '(' :: (inner ++ [')']) ∧ '(' ∉ inner := by
  unfold callArguments? at h
  split at h
  · rename_i hstart
    obtain ⟨rest, hrest⟩ := List.isPrefixOf_iff_prefix.mp hstart
    have hdrop : cs.drop (name.length + 1) = rest := by
      rw [← hrest, List.drop_left' (by simp)]
    simp only [hdrop] at h
    split at h
    · rename_i hlast
      split at h
      · cases h
      · rename_i hinner
        refine ⟨rest.dropLast, ?_, ?_⟩
        · rw [List.dropLast_append_getLast? _ hlast, ← hrest]
          simp
        · intro hmem
          apply hinner
          exact List.any_eq_true.mpr ⟨'(', hmem, by decide⟩
    · cases h
  · cases h

/-- The names of the colour functions. -/
def functionNames : List (List Char) := ["rgb".toList, "rgba".toList, "hsl".toList, "hsla".toList]

theorem format_ofRgbArguments? {format : ColorFormat} {args : List Char} {c : Color}
    (h : ofRgbArguments? format args = some c) : c.format = format := by
  simp only [ofRgbArguments?, Option.bind_eq_bind, Option.bind_eq_some_iff] at h
  obtain ⟨_, _, _, _, _, _, _, _, _, _, heq⟩ := h
  cases heq
  rfl

theorem format_ofHslArguments? {format : ColorFormat} {args : List Char} {c : Color}
    (h : ofHslArguments? format args = some c) : c.format = format := by
  simp only [ofHslArguments?, Option.bind_eq_bind, Option.bind_eq_some_iff] at h
  obtain ⟨_, _, _, _, _, _, _, _, _, _, heq⟩ := h
  cases heq
  rfl

theorem ofCall?_spec {lower : List Char} {c : Color} (h : ofCall? lower = some c) :
    c.format ∈ [.rgb, .rgba, .hsl, .hsla] ∧
      ∃ name ∈ functionNames, ∃ args, callArguments? name lower = some args := by
  unfold ofCall? at h
  split at h
  · rename_i args hargs
    rw [format_ofRgbArguments? h]
    exact ⟨by decide, _, by decide, args, hargs⟩
  · split at h
    · rename_i args hargs
      rw [format_ofRgbArguments? h]
      exact ⟨by decide, _, by decide, args, hargs⟩
    · split at h
      · rename_i args hargs
        rw [format_ofHslArguments? h]
        exact ⟨by decide, _, by decide, args, hargs⟩
      · split at h
        · rename_i args hargs
          rw [format_ofHslArguments? h]
          exact ⟨by decide, _, by decide, args, hargs⟩
        · cases h

/-- No function name ends like the one of a reference. -/
theorem not_infix_of_call {name inner : List Char} (hname : name ∈ functionNames)
    (hinner : '(' ∉ inner) : ¬opening <:+: name ++ '(' :: (inner ++ [')']) := by
  rintro ⟨before, after, heq⟩
  have hplain : ∀ name ∈ functionNames, '(' ∉ name ∧ name.getLast? ≠ some 'r' := by decide
  obtain ⟨hopen, hlast⟩ := hplain name hname
  -- There is one opening parenthesis only, so the two texts are cut at the same place.
  have hbefore : '(' ∉ before ++ "var".toList := by
    intro hmem
    have hcount := congrArg (List.count '(') heq
    have hpos : 0 < before.count '(' := List.count_pos_iff.mpr (by simpa using hmem)
    have hmore : (opening ++ after).count '(' = 1 + after.count '(' := by
      rw [List.count_append]
      rfl
    have hone : (name ++ '(' :: (inner ++ [')'])).count '(' = 1 := by
      simp [List.count_eq_zero.mpr hopen, List.count_eq_zero.mpr hinner]
    rw [hone, List.append_assoc, List.count_append, hmore] at hcount
    omega
  have hcut : (before ++ "var".toList) ++ '(' :: after = name ++ '(' :: (inner ++ [')']) := by
    rw [← heq]
    simp [opening]
  obtain ⟨rfl, _⟩ := append_first_inj hbefore hopen hcut
  exact hlast (by simp)

/-- Case folding agrees with lowering where that gives a character of ASCII. -/
theorem foldCase_eq_toLower {c : Char} (h : c.toLower.toNat < 128) : foldCase c = c.toLower := by
  unfold foldCase
  split
  · rename_i hc
    rw [hc] at h
    exact absurd h (by decide)
  · split
    · rename_i hc
      rw [hc] at h
      exact absurd h (by decide)
    · rfl

theorem prefix_map_foldCase {start cs : List Char} (hascii : ∀ c ∈ start, c.toNat < 128)
    (h : start <+: lowerAscii cs) : start <+: cs.map foldCase := by
  induction start generalizing cs with
  | nil => exact List.nil_prefix
  | cons d start ih =>
    cases cs with
    | nil => cases h.length_le
    | cons c cs =>
      obtain ⟨rfl, hrest⟩ := List.cons_prefix_cons.mp h
      obtain ⟨hc, hstart⟩ := List.forall_mem_cons.mp hascii
      rw [List.map_cons, foldCase_eq_toLower hc]
      exact List.cons_prefix_cons.mpr ⟨rfl, ih hstart hrest⟩

/-- A call of a colour function has the pattern for calls, in any case. -/
theorem startsColorCall_of_callArguments? {name args cs : List Char} (hname : name ∈ functionNames)
    (h : callArguments? name (lowerAscii cs) = some args) : startsColorCall cs = true := by
  have hstarts : ∀ name ∈ functionNames,
      (name ++ ['(']).all (·.toNat < 128) = true ∧
        ∃ start ∈ ["rgb(", "rgba(", "hsl(", "hsla("], start.toList = name ++ ['('] := by decide
  obtain ⟨hascii, start, hmem, hstart⟩ := hstarts name hname
  obtain ⟨inner, hcs, _⟩ := callArguments?_spec h
  apply List.any_eq_true.mpr
  refine ⟨start, hmem, ?_⟩
  rw [List.isPrefixOf_iff_prefix, hstart]
  apply prefix_map_foldCase
  · intro c hc
    exact of_decide_eq_true (List.all_eq_true.mp hascii c hc)
  · exact ⟨inner ++ [')'], by rw [hcs]; simp⟩

theorem not_infix_of_lowerAscii {cs : List Char} (h : ¬opening <:+: lowerAscii cs) :
    ¬opening <:+: cs := by
  intro hinside
  exact h (hinside.map Char.toLower)

/-! ## Keywords -/

theorem open_notMem_keywords : ∀ entry ∈ keywords, '(' ∉ entry.1.toList := by decide +kernel

theorem open_mem_lowerAscii {cs : List Char} (h : '(' ∈ cs) : '(' ∈ lowerAscii cs :=
  List.mem_map.mpr ⟨'(', h, by decide⟩

theorem ofKeyword?_spec {name : String} {c : Color} (h : ofKeyword? name = some c) :
    c.format = .named ∧ '(' ∉ name.toList := by
  obtain ⟨code, hlookup, rfl⟩ := Option.map_eq_some_iff.mp h
  obtain ⟨before, after, hkeywords, _⟩ := List.lookup_eq_some_iff.mp hlookup
  have hentry : (lowercase name, code) ∈ keywords := by
    rw [hkeywords]
    simp
  refine ⟨rfl, ?_⟩
  intro hmem
  apply open_notMem_keywords _ hentry
  rw [lowercase, String.toList_ofList]
  exact open_mem_lowerAscii hmem

end Color

/-! ## Forms of colours -/

/-- The pattern for literals that are colours of a form. -/
def ColorFormat.pattern : ColorFormat → List Char → Bool
  | .hex => Literal.isHexColor
  | .rgb | .rgba | .hsl | .hsla => Literal.startsColorCall
  | .named => Literal.isColorName

namespace Color

open Literal

variable {text : List Char} {c : Color}

theorem pattern_of_call {format : ColorFormat} (h : format ∈ [.rgb, .rgba, .hsl, .hsla]) :
    format.pattern = startsColorCall := by
  cases format with
  | rgb | rgba | hsl | hsla => rfl
  | hex | named => exact absurd h (by decide)

theorem read?_trimBlanks (text : List Char) : read? (trimBlanks text) = read? text := by
  rw [read?, read?, trimBlanks_trimBlanks]

/-- A colour has the pattern for its form, and holds no reference. -/
theorem pattern_of_read? (h : read? text = some c) :
    c.format.pattern (trimBlanks text) = true ∧ ¬opening <:+: trimBlanks text := by
  have hname : c.format = .named → c.format.pattern (trimBlanks text) = true := by
    intro hformat
    rw [hformat, ColorFormat.pattern, isColorName, read?_trimBlanks, h]
    exact beq_iff_eq.mpr hformat
  simp only [read?] at h
  generalize trimBlanks text = core at h hname ⊢
  split at h
  · rename_i hhead
    obtain ⟨digits, rfl⟩ := List.head?_eq_some_iff.mp hhead
    obtain ⟨hformat, hpattern, hopen⟩ := ofHex?_spec h
    rw [hformat]
    exact ⟨hpattern, not_infix_of_notMem hopen⟩
  · split at h
    · rename_i hlower
      cases h
      refine ⟨hname rfl, not_infix_of_lowerAscii ?_⟩
      rw [hlower]
      decide
    · split at h
      · rename_i hcall
        cases h
        obtain ⟨hformat, name, hfunction, args, hargs⟩ := ofCall?_spec hcall
        obtain ⟨inner, hlower, hinner⟩ := callArguments?_spec hargs
        refine ⟨?_, not_infix_of_lowerAscii ?_⟩
        · rw [pattern_of_call hformat]
          exact startsColorCall_of_callArguments? hfunction hargs
        · rw [hlower]
          exact not_infix_of_call hfunction hinner
      · obtain ⟨hformat, hopen⟩ := ofKeyword?_spec h
        rw [String.toList_ofList] at hopen
        refine ⟨hname hformat, not_infix_of_notMem ?_⟩
        intro hmem
        exact hopen (open_mem_lowerAscii hmem)

/-- The patterns for colours are among those for literals. -/
theorem isLiteral_of_pattern {format : ColorFormat}
    (hpattern : format.pattern (trimBlanks text) = true)
    (hopening : ¬opening <:+: trimBlanks text) : isLiteral text = true := by
  have hoccurs : occurs "var(".toList (trimBlanks text) = false :=
    Bool.eq_false_iff.mpr fun h => hopening (occurs_iff.mp h)
  simp only [isLiteral, hoccurs, Bool.not_false, Bool.true_and, Bool.or_eq_true]
  cases format with
  | hex => exact .inl (.inl (.inl hpattern))
  | rgb | rgba | hsl | hsla => exact .inl (.inl (.inr hpattern))
  | named => exact .inr hpattern

/-- Every colour is a literal: whatever is read as a colour has the pattern for its form, holds no
reference, and so is a literal. -/
theorem isLiteral_of_isColor (value : String) (h : isColor value = true) :
    isLiteral value.toList = true ∧ occurs "var(".toList value.toList = false ∧
      ∃ c, ofText? value = some c ∧ c.format.pattern (trimBlanks value.toList) = true := by
  obtain ⟨c, hread⟩ := Option.isSome_iff_exists.mp h
  obtain ⟨hpattern, hopening⟩ := pattern_of_read? hread
  refine ⟨isLiteral_of_pattern hpattern hopening, ?_, c, hread, hpattern⟩
  apply Bool.eq_false_iff.mpr
  intro hoccurs
  exact hopening (infix_trimBlanks isBlank_opening (occurs_iff.mp hoccurs))

/-- A call between blanks, in mixed case and with blanks between its components. -/
theorem isLiteral_of_isColor_hsla :
    isColor " HSLa( 120DEG 50% 25% / .5 )\n" = true ∧
      isLiteral " HSLa( 120DEG 50% 25% / .5 )\n".toList = true := by
  have hcolor : isColor " HSLa( 120DEG 50% 25% / .5 )\n" = true := by decide +kernel
  exact ⟨hcolor, (isLiteral_of_isColor _ hcolor).1⟩

end Color

end StyleVars
