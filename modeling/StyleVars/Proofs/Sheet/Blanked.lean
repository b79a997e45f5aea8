import StyleVars.Proofs.Sheet.Overwrite
import StyleVars.Proofs.Sheet.Position

/-!
# Sheets of blanked texts

Blanking the comments of a text changes nothing else in it, byte by byte, and is over once and for
all: what is blanked holds no comment. So a sheet can be read from the blanked text as well. It has
the same rules, definitions, usages and literals, with the same texts at the same byte offsets. Only
their ranges are those of other lines, since a character of a comment may become several spaces.
-/

namespace StyleVars

/-! ## The same data on other lines -/

def Declaration.onLines (lines : LineTable) (d : Declaration) : Declaration :=
  { d with range := lines.range d.property.start d.value.stop }

def Rule.onLines (lines : LineTable) (r : Rule) : Rule :=
  { r with
    selectorRange := lines.rangeOf r.selector
    declarations := r.declarations.map (.onLines lines) }

def Usage.onLines (lines : LineTable) (u : Usage) : Usage :=
  { u with range := lines.rangeOf u.reference.source }

def LiteralUse.onLines (lines : LineTable) (l : LiteralUse) : LiteralUse :=
  { l with range := lines.rangeOf l.value }

section Lines

variable (lines lines' : LineTable)

namespace Declaration

variable (d : Declaration)

theorem usages_onLines :
    (d.onLines lines').usages lines' = (d.usages lines).map (.onLines lines') := by
  have hdefinition : (d.onLines lines').isDefinition = d.isDefinition := rfl
  rw [usages, usages, hdefinition]
  split
  · rfl
  · rw [List.map_map]
    rfl

theorem literals_onLines (checked : List String) :
    (d.onLines lines').literals lines' checked =
      (d.literals lines checked).map (.onLines lines') := by
  have hfallback : (d.onLines lines').fallbackLiterals lines' =
      (d.fallbackLiterals lines).map (.onLines lines') := by
    rw [fallbackLiterals, fallbackLiterals, List.map_filterMap]
    refine List.filterMap_congr fun f _ => ?_
    split <;> rfl
  have hvalue : (d.onLines lines').valueLiterals lines' =
      (d.valueLiterals lines).map (.onLines lines') := by
    rw [valueLiterals, valueLiterals, List.map_map]
    rfl
  have hdefinition : (d.onLines lines').isDefinition = d.isDefinition := rfl
  have hproperty : (d.onLines lines').property.text = d.property.text := rfl
  rw [literals, literals, hdefinition, hproperty, hfallback, hvalue]
  split
  · rfl
  · rw [List.map_append]
    split <;> rfl

end Declaration

theorem declaration?_onLines (segment : Excerpt) :
    Sheet.declaration? lines' segment =
      (Sheet.declaration? lines segment).map (.onLines lines') := by
  rw [Sheet.declaration?, Sheet.declaration?]
  split
  · rfl
  · rw [Declaration.read, Declaration.read]
    cases readProperty? segment with
    | none => rfl
    | some read =>
      dsimp only
      split <;> rfl

theorem rule?_onLines (chunk : Chunk) :
    chunk.rule? lines' = (chunk.rule? lines).map (.onLines lines') := by
  cases chunk with
  | statement text | group | close offset | tail text => rfl
  | rule selector brace body closed =>
    have hreads : readsOf (readBody lines' body) =
        (readsOf (readBody lines body)).map (.onLines lines') := by
      rw [Sheet.readsOf_readBody, Sheet.readsOf_readBody, List.map_filterMap]
      exact List.filterMap_congr fun segment _ => declaration?_onLines lines lines' segment
    rw [Chunk.rule?, hreads]
    rfl

end Lines

namespace Sheet

/-- The sheets hold the same rules, definitions, usages and literals, the second one on its own
lines. -/
structure SameOnLines (s t : Sheet) : Prop where
  rules : t.rules = s.rules.map (.onLines t.lines)
  definitions : t.definitions = s.definitions.map (.onLines t.lines)
  usages : t.usages = s.usages.map (.onLines t.lines)
  literals (checked : List String) :
    t.literals checked = (s.literals checked).map (.onLines t.lines)

/-- It is enough that they have the same rules. -/
theorem sameOnLines_of_rules {s t : Sheet} (h : t.rules = s.rules.map (.onLines t.lines)) :
    s.SameOnLines t := by
  have hdeclarations : t.declarations = s.declarations.map (.onLines t.lines) := by
    rw [declarations, h, List.flatMap_map, declarations, List.map_flatMap]
    rfl
  refine ⟨h, ?_, ?_, fun checked => ?_⟩
  · rw [definitions, hdeclarations, List.filter_map]
    rfl
  · rw [usages, hdeclarations, List.flatMap_map, usages, List.map_flatMap]
    exact List.flatMap_congr fun d _ => d.usages_onLines s.lines t.lines
  · rw [literals, hdeclarations, List.flatMap_map, literals, List.map_flatMap]
    exact List.flatMap_congr fun d _ => d.literals_onLines s.lines t.lines checked

theorem sameOnLines_blank (cs : List Char) :
    (ofChars cs).SameOnLines (ofChars (Comment.blank cs)) := by
  apply sameOnLines_of_rules
  have hrules (cs : List Char) : (ofChars cs).rules =
      (blanked cs).chunks.filterMap (·.rule? (.ofChars 0 cs)) := rfl
  have hblanked : blanked (Comment.blank cs) = blanked cs := by
    rw [blanked, Comment.blank_blank, blanked]
  rw [hrules, hrules, hblanked, List.map_filterMap]
  exact List.filterMap_congr fun chunk _ => rule?_onLines _ _ chunk

end Sheet

/-! ## Bytes of a text -/

namespace Comment

/-- The bytes of a text. -/
def bytes (text : String) : List UInt8 := text.toUTF8.data.toList

theorem bytes_ofList (cs : List Char) : bytes (String.ofList cs) = encode cs := by
  rw [bytes, String.toUTF8_eq_toByteArray, String.toByteArray_ofList, List.utf8Encode,
    List.toList_data_toByteArray]
  rfl

theorem bytes_eq_encode (text : String) : bytes text = encode text.toList := by
  rw [← bytes_ofList, String.ofList_toList]

/-- The text `blanked` is `text` with its comments blanked. -/
structure Blanks (text blanked : String) : Prop where
  /-- Overwriting the comments in the bytes of the text gives the bytes of a text. -/
  decodes : String.fromUTF8? (overwrite (bytes text)).toByteArray = some blanked
  size : (bytes blanked).length = (bytes text).length
  feeds (offset : Nat) :
    (bytes blanked)[offset]? = some (byte '\n') ↔ (bytes text)[offset]? = some (byte '\n')
  divided : ∃ stretches, IsDivision (byte '/') (byte '*') stretches ∧
    Stretch.join stretches = bytes text
  /-- What is plain stays as it is, and the bytes of comments are spaces or line feeds. -/
  overwritten {stretches : List (Stretch UInt8)} : IsDivision (byte '/') (byte '*') stretches →
    Stretch.join stretches = bytes text →
      bytes blanked = stretches.flatMap Stretch.overwritten
  unmarked : ¬['/', '*'] <:+: blanked.toList
  stable : Sheet.blankedText blanked = blanked

theorem bytes_blankedText (text : String) :
    bytes (Sheet.blankedText text) = overwrite (bytes text) := by
  rw [Sheet.blankedText, bytes_ofList, ← overwrite_encode, bytes_eq_encode]

theorem blanks_blankedText (text : String) : Blanks text (Sheet.blankedText text) where
  decodes := by
    have hvalid : (overwrite (bytes text)).toByteArray = (Sheet.blankedText text).toByteArray := by
      rw [bytes_eq_encode, overwrite_encode, Sheet.blankedText, String.toByteArray_ofList]
      rfl
    rw [hvalid, String.fromUTF8?, dif_pos (Sheet.blankedText text).isValidUTF8]
    rfl
  size := by
    have hfeeds := congrArg List.length (feeds_overwrite (bytes text))
    rw [bytes_blankedText]
    simpa using hfeeds
  feeds offset := by
    have hfeeds := congrArg (·[offset]? = some true) (feeds_overwrite (bytes text))
    rw [bytes_blankedText]
    simpa using hfeeds
  divided := ⟨_, isDivision_divide (byte '/') (byte '*') (bytes text)⟩
  overwritten h hjoin := by
    rw [bytes_blankedText, overwrite, ← hjoin, h.divide_join (by decide)]
  unmarked := by
    rw [Sheet.blankedText, String.toList_ofList]
    exact splitAtPair?_eq_none_iff.mp (splitAtPair?_blankFrom false text.toList)
  stable := by
    rw [Sheet.blankedText, Sheet.blankedText, String.toList_ofList, blank_blank]

end Comment

/-- Blanking the comments of a text is exact and done once: bytes outside comments stay, bytes of
comments become spaces, line feeds apart, the result is a text without comments, and it is blanked
already. Hence the sheet of the blanked text holds the same rules, definitions, usages and literals,
with the same texts at the same offsets. -/
theorem Sheet.read_from_blanked_text (text : String) :
    Comment.Blanks text (blankedText text) ∧
      (ofString text).SameOnLines (ofString (blankedText text)) := by
  refine ⟨Comment.blanks_blankedText text, ?_⟩
  have hread : ofString (blankedText text) = ofChars (Comment.blank text.toList) := by
    rw [ofString, blankedText, String.toList_ofList]
  rw [hread]
  exact sameOnLines_blank text.toList

end StyleVars
