import StyleVars.Proofs.Sheet.Block
import StyleVars.Proofs.Sheet.Comment
import StyleVars.Proofs.Value.Reference
import StyleVars.Proofs.Value.Token

/-!
# Positions in a sheet

A sheet is read from its text with the comments blanked, and every position that is recorded refers
to the text itself. Whatever is cut out of the blanked text is the slice between its two offsets.
What is recorded stands between edges of the text as well: properties hold no blanks, and the other
ends are firm or the end of the text.
-/

namespace StyleVars

/-! ## Declarations -/

/-- A value without the blanks around it and without `!important`. -/
theorem Excerpt.firmIn_withoutImportant (e : Excerpt) : e.trim.withoutImportant.1.FirmIn e := by
  have hstart := e.anchored_start_dropWhile
  have htrim := Excerpt.partOf_trimEnd (e.dropWhile isBlank)
  refine FirmIn.of_restOf ?_ (Excerpt.restOf_dropWhile isBlank e)
  refine ⟨(Excerpt.partOf_withoutImportant _).trans htrim, ?_, ?_⟩
  · rw [withoutImportant]
    split <;> exact hstart
  · rw [withoutImportant]
    split
    · refine anchored_stop_trimEnd ?_ rfl hstart
      exact ((Excerpt.partOf_take _ _).trans (Excerpt.partOf_trimEnd _)).trans htrim
    · exact anchored_stop_trimEnd htrim rfl hstart

/-- The property is a name at the start of the segment. -/
theorem isNameOf_readProperty? {segment property value : Excerpt}
    (h : readProperty? segment = some (property, value)) :
    ∃ rest, property.IsNameOf (segment.dropWhile isBlank) rest := by
  rw [readProperty?] at h
  split at h
  · cases h
  · rename_i name rest hname
    obtain ⟨after, _, heq⟩ := Option.map_eq_some_iff.mp h
    cases heq
    rcases Option.or_eq_some_iff.mp hname with hvariable | ⟨_, hordinary⟩
    · exact ⟨rest, Excerpt.isNameOf_readVariableName? hvariable⟩
    · exact ⟨rest, Excerpt.isNameOf_readOrdinaryName? hordinary⟩

namespace Declaration

/-- Where a declaration stands in `e`: its property, which holds no blanks, and then its value. -/
structure StandsIn (lines : LineTable) (d : Declaration) (e : Excerpt) : Prop where
  property : d.property.PartOf e
  property_ne_nil : d.property.chars ≠ []
  property_visible : ∀ c ∈ d.property.chars, isBlank c = false
  value : d.value.FirmIn e
  range : d.range = lines.range d.property.start d.value.stop

theorem StandsIn.of_partOf {lines : LineTable} {d : Declaration} {e part : Excerpt}
    (h : d.StandsIn lines part) (hpart : part.PartOf e) (hstop : e.Anchored part.stop) :
    d.StandsIn lines e where
  property := h.property.trans hpart
  property_ne_nil := h.property_ne_nil
  property_visible := h.property_visible
  value := h.value.of_partOf hpart hstop
  range := h.range

theorem standsIn_read {lines : LineTable} {segment : Excerpt} {d : Declaration}
    (h : Declaration.read lines segment = .ok d) : d.StandsIn lines segment := by
  have hpart := (partOf_read h).1
  rw [Declaration.read] at h
  split at h
  · cases h
  · rename_i property rest hproperty
    obtain ⟨_, hname⟩ := isNameOf_readProperty? hproperty
    have hvalue := rest.firmIn_withoutImportant.of_restOf (readProperty?_spec hproperty).2.1
    dsimp only at h
    split at h
    · cases h
    · cases h
      exact ⟨hpart, hname.ne_nil,
        fun c hc => isBlank_eq_false_of_isNameChar (hname.nameChars c hc), hvalue, rfl⟩

/-- A literal is the fallback of a reference, the value or a token of it. -/
theorem StandsIn.literal {lines : LineTable} {checked : List String} {d : Declaration} {e : Excerpt}
    {l : LiteralUse} (h : d.StandsIn lines e) (hl : l ∈ d.literals lines checked) :
    l.value.FirmIn e ∧ l.range = lines.rangeOf l.value := by
  rw [literals] at hl
  split at hl
  · cases hl
  · rcases List.mem_append.mp hl with hfallback | hvalue
    · obtain ⟨f, hf, hsome⟩ := List.mem_filterMap.mp hfallback
      obtain ⟨r, hr, hrf⟩ := List.mem_filterMap.mp hf
      split at hsome
      · cases hsome
        exact ⟨(Reference.firmIn_fallback_of_mem_references hr hrf).trans h.value, rfl⟩
      · cases hsome
    · split at hvalue
      · obtain ⟨found, hfound, rfl⟩ := List.mem_map.mp hvalue
        refine ⟨?_, rfl⟩
        split at hfound
        · rw [List.mem_singleton.mp hfound]
          exact h.value
        · exact (Excerpt.firmIn_of_mem_tokens (List.mem_filter.mp hfound).1).trans h.value
      · cases hvalue

theorem StandsIn.usage {lines : LineTable} {d : Declaration} {e : Excerpt} {u : Usage}
    (h : d.StandsIn lines e) (hu : u ∈ d.usages lines) :
    u.reference.source.FirmIn e ∧
      ∃ p : Reference.Parts, u.reference = p.reference u.reference.source.start := by
  rw [usages] at hu
  split at hu
  · cases hu
  · obtain ⟨r, hr, rfl⟩ := List.mem_map.mp hu
    exact ⟨(Reference.firmIn_source_of_mem_references hr).trans h.value,
      Reference.exists_parts_of_mem_references hr⟩

end Declaration

/-! ## What is cut out -/

namespace Excerpt

/-- What is cut out of a value: its references, their fallbacks and its tokens. -/
def valueCuts (value : Excerpt) : List Excerpt :=
  value.references.map (·.source) ++ value.references.filterMap (·.fallback) ++ value.tokens

/-- What is cut out of a segment: its property and what follows the colon, from which the value is
left. -/
def segmentCuts (segment : Excerpt) : List Excerpt :=
  match readProperty? segment with
  | none => [segment.trim]
  | some (property, rest) =>
    let value := rest.trim.withoutImportant.1
    [property, rest, rest.trim, value] ++ value.valueCuts

/-- What is cut out of the body of a rule. -/
def bodyCuts (body : Excerpt) : List Excerpt :=
  let segments := body.pieces.flatMap (·.segments)
  body.pieces ++ segments ++ segments.flatMap (·.segmentCuts)

theorem partOf_of_mem_valueCuts {value part : Excerpt} (h : part ∈ value.valueCuts) :
    part.PartOf value := by
  simp only [valueCuts, List.mem_append, List.mem_map, List.mem_filterMap] at h
  rcases h with (⟨r, hr, rfl⟩ | ⟨r, hr, hf⟩) | htoken
  · exact (inOrder_references value).partOf hr
  · exact (Reference.firmIn_fallback_of_mem_references hr hf).partOf
  · exact (firmIn_of_mem_tokens htoken).partOf

theorem partOf_of_mem_segmentCuts {segment part : Excerpt} (h : part ∈ segment.segmentCuts) :
    part.PartOf segment := by
  rw [segmentCuts] at h
  split at h
  · rw [List.mem_singleton.mp h]
    exact partOf_trim segment
  · rename_i property rest hproperty
    obtain ⟨hpart, hrest, _⟩ := readProperty?_spec hproperty
    have hvalue := rest.firmIn_withoutImportant.partOf.trans hrest.partOf
    simp only [List.cons_append, List.nil_append, List.mem_cons] at h
    rcases h with rfl | rfl | rfl | rfl | hcut
    · exact hpart
    · exact hrest.partOf
    · exact (partOf_trim _).trans hrest.partOf
    · exact hvalue
    · exact (partOf_of_mem_valueCuts hcut).trans hvalue

theorem partOf_of_mem_bodyCuts {body part : Excerpt} (h : part ∈ body.bodyCuts) :
    part.PartOf body := by
  simp only [bodyCuts, List.mem_append] at h
  rcases h with (hpiece | hmem) | hcut
  · exact (inOrder_pieces body).partOf hpiece
  · exact body.inOrder_bodySegments.partOf hmem
  · obtain ⟨segment, hmem, hpart⟩ := List.mem_flatMap.mp hcut
    exact (partOf_of_mem_segmentCuts hpart).trans (body.inOrder_bodySegments.partOf hmem)

end Excerpt

/-- What is cut out of a sheet for a chunk. -/
def Chunk.cuts : Chunk → List Excerpt
  | .statement text => [text]
  | .tail text => [text]
  | .rule selector _ body _ => selector :: body :: body.bodyCuts
  | .group => []
  | .close _ => []

theorem Chunk.StandsIn.partOf_of_mem_cuts {chunk : Chunk} {e part : Excerpt}
    (h : chunk.StandsIn e) (hpart : part ∈ chunk.cuts) : part.PartOf e := by
  cases chunk with
  | statement text | tail text =>
    rw [List.mem_singleton.mp hpart]
    exact h
  | rule selector brace body closed =>
    simp only [cuts, List.mem_cons] at hpart
    rcases hpart with rfl | rfl | hcut
    · exact h.firm_selector.partOf
    · exact h.partOf_body
    · exact (Excerpt.partOf_of_mem_bodyCuts hcut).trans h.partOf_body
  | group | close offset => cases hpart

/-! ## The sheet -/

namespace Sheet

theorem standsIn_of_mem_readBody {lines : LineTable} {body : Excerpt} {d : Declaration}
    (h : d ∈ readsOf (readBody lines body)) : d.StandsIn lines body := by
  rw [readsOf_readBody] at h
  obtain ⟨segment, hmem, hsome⟩ := List.mem_filterMap.mp h
  obtain ⟨piece, hpiece, hsegment⟩ := List.mem_flatMap.mp hmem
  obtain ⟨hpart, hstop⟩ := Excerpt.anchored_stop_segments hpiece hsegment
  exact (Declaration.standsIn_read (read_of_declaration? hsome)).of_partOf hpart hstop

theorem standsIn_of_mem_declarations {cs : List Char} {d : Declaration}
    (h : d ∈ (ofChars cs).declarations) : d.StandsIn (.ofChars 0 cs) (blanked cs) := by
  rw [declarations_ofChars] at h
  obtain ⟨body, hbody, hd⟩ := List.mem_flatMap.mp h
  obtain ⟨chunk, hchunk, hsome⟩ := List.mem_filterMap.mp hbody
  have hstands := Excerpt.standsIn_chunks _ chunk hchunk
  cases chunk with
  | rule selector brace body closed =>
    cases hsome
    exact (standsIn_of_mem_readBody hd).of_partOf hstands.partOf_body hstands.stop_body
  | statement text | group | close offset | tail text => cases hsome

/-- A rule is a part of the sheet that begins with the selector. -/
theorem exists_of_mem_rules {cs : List Char} {r : Rule} (h : r ∈ (ofChars cs).rules) :
    r.selector.FirmIn (blanked cs) ∧
      r.selectorRange = (LineTable.ofChars 0 cs).rangeOf r.selector ∧
      ∃ whole : Excerpt, whole.FirmIn (blanked cs) ∧ r.span = whole.span ∧
        whole.start = r.selector.start ∧ ∃ more, whole.chars = r.selector.chars ++ more := by
  obtain ⟨chunk, hchunk, hsome⟩ := List.mem_filterMap.mp h
  have hstands := Excerpt.standsIn_chunks _ chunk hchunk
  cases chunk with
  | rule selector brace body closed =>
    cases hsome
    obtain ⟨more, hfirm, hstop⟩ := hstands.whole
    refine ⟨hstands.firm_selector, rfl, _, hfirm, ?_, rfl, more, rfl⟩
    rw [Excerpt.span, hstop]
    rfl
  | statement text | group | close offset | tail text => cases hsome

/-- Everything that is cut out while a sheet is read from `text`. -/
def cuts (text : String) : List Excerpt := (blanked text.toList).chunks.flatMap (·.cuts)

/-- Every span that is recorded in a sheet. -/
def spans (s : Sheet) (checked : List String) : List Span :=
  s.rules.flatMap (fun r => [r.span, r.selector.span]) ++
    s.declarations.flatMap (fun d => [d.property.span, d.value.span]) ++
    s.usages.map (·.reference.source.span) ++ (s.literals checked).map (·.value.span)

/-- The text with its comments blanked. -/
def blankedText (text : String) : String := String.ofList (Comment.blank text.toList)

section Edges

variable {text : String} {part : Excerpt}

theorem slice?_blankedText (h : part.PartOf (blanked text.toList)) :
    part.span.slice? (blankedText text) = some part.text := h.slice?

/-- What is firm in the blanked text stands between edges of the text. -/
theorem onEdges_of_firmIn (h : part.FirmIn (blanked text.toList)) : part.span.OnEdges text := by
  have hstart := Comment.isValid_of_anchored h.start
  have hstop := Comment.isValid_of_anchored h.stop
  rw [String.ofList_toList] at hstart hstop
  refine ⟨Nat.le_add_right _ _, ?_, hstart, hstop⟩
  have hsize : (blanked text.toList).stop = text.utf8ByteSize := by
    rw [blanked, Excerpt.stop, Nat.zero_add, Comment.byteSize_blank, byteSize_toList]
  exact hsize ▸ h.partOf.stop_le

/-- A property stands in the text itself. -/
theorem property_partOf {d : Declaration} (h : d ∈ (ofString text).declarations) :
    d.property.PartOf ⟨0, text.toList⟩ := by
  have hstands := standsIn_of_mem_declarations h
  exact Comment.partOf_of_blank hstands.property hstands.property_ne_nil hstands.property_visible

theorem onEdges_of_mem_spans {checked : List String} {span : Span}
    (h : span ∈ (ofString text).spans checked) : span.OnEdges text := by
  simp only [spans, List.mem_append, List.mem_flatMap, List.mem_map, List.mem_cons,
    List.not_mem_nil, or_false] at h
  rcases h with ((⟨r, hr, rfl | rfl⟩ | ⟨d, hd, rfl | rfl⟩) | ⟨u, hu, rfl⟩) | ⟨l, hl, rfl⟩
  · obtain ⟨_, _, whole, hwhole, hspan, _⟩ := exists_of_mem_rules hr
    rw [hspan]
    exact onEdges_of_firmIn hwhole
  · exact onEdges_of_firmIn (exists_of_mem_rules hr).1
  · have hedges := (property_partOf hd).onEdges
    rwa [String.ofList_toList] at hedges
  · exact onEdges_of_firmIn (standsIn_of_mem_declarations hd).value
  · obtain ⟨d, hd, hud⟩ := List.mem_flatMap.mp hu
    exact onEdges_of_firmIn ((standsIn_of_mem_declarations hd).usage hud).1
  · obtain ⟨d, hd, hld⟩ := List.mem_flatMap.mp hl
    exact onEdges_of_firmIn ((standsIn_of_mem_declarations hd).literal hld).1

end Edges

/-- The positions in the sheet that is read from `text` are right: what is cut out of the blanked
text is there, whatever is recorded stands between edges of the text and is what the blanked text
has there, and the ranges are those of the offsets in the text. -/
structure Located (text : String) (checked : List String) : Prop where
  size : (blankedText text).utf8ByteSize = text.utf8ByteSize
  cuts : ∀ e ∈ cuts text, e.span.slice? (blankedText text) = some e.text
  comment : ∀ start ∈ Comment.unterminated? text.toList,
    (⟨start, start + 2⟩ : Span).slice? text = some "/*"
  spans : ∀ span ∈ (ofString text).spans checked, span.OnEdges text
  declaration : ∀ d ∈ (ofString text).declarations,
    d.property.span.slice? (blankedText text) = some d.property.text ∧
      d.property.span.slice? text = some d.property.text ∧
      d.value.span.slice? (blankedText text) = some d.value.text ∧
      d.range = (LineTable.ofString text).range d.property.start d.value.stop
  /-- The name and the fallback of a reference are those that are written there. -/
  usage : ∀ u ∈ (ofString text).usages, ∃ parts : Reference.Parts,
    u.reference = parts.reference u.reference.source.start ∧
      u.reference.source.span.slice? (blankedText text) =
        some ("var(" ++ String.ofList parts.inner ++ ")") ∧
      u.range = (LineTable.ofString text).range u.reference.source.start u.reference.source.stop
  literal : ∀ l ∈ (ofString text).literals checked,
    l.value.span.slice? (blankedText text) = some l.value.text ∧
      l.range = (LineTable.ofString text).range l.value.start l.value.stop
  rule : ∀ r ∈ (ofString text).rules,
    (∃ more, r.span.slice? (blankedText text) = some (r.selector.text ++ more)) ∧
      r.selectorRange = (LineTable.ofString text).range r.span.start
        (r.span.start + r.selector.text.utf8ByteSize)

theorem recorded_positions_refer_to_text (text : String) (checked : List String) :
    Located text checked where
  size := by
    rw [blankedText, utf8ByteSize_ofList, Comment.byteSize_blank, byteSize_toList]
  cuts := by
    intro e he
    obtain ⟨chunk, hchunk, hcut⟩ := List.mem_flatMap.mp he
    have hstands := Excerpt.standsIn_chunks _ chunk hchunk
    exact slice?_blankedText (hstands.partOf_of_mem_cuts hcut)
  comment := by
    intro start hstart
    have hslice := (Comment.partOf_of_unterminated? hstart).slice?
    rwa [String.ofList_toList] at hslice
  spans := fun span hspan => onEdges_of_mem_spans hspan
  declaration := by
    intro d hd
    have hstands := standsIn_of_mem_declarations hd
    have hslice := (property_partOf hd).slice?
    rw [String.ofList_toList] at hslice
    exact ⟨slice?_blankedText hstands.property, hslice, slice?_blankedText hstands.value.partOf,
      hstands.range⟩
  usage := by
    intro u hu
    obtain ⟨d, hd, hud⟩ := List.mem_flatMap.mp hu
    obtain ⟨hfirm, parts, hparts⟩ := (standsIn_of_mem_declarations hd).usage hud
    refine ⟨parts, hparts, ?_, range_of_mem_usages hu⟩
    have hsource : u.reference.source.text = String.ofList parts.chars := by
      rw [hparts]
      rfl
    rw [slice?_blankedText hfirm.partOf, hsource, parts.ofList_chars]
  literal := by
    intro l hl
    obtain ⟨d, hd, hld⟩ := List.mem_flatMap.mp hl
    obtain ⟨hfirm, hrange⟩ := (standsIn_of_mem_declarations hd).literal hld
    exact ⟨slice?_blankedText hfirm.partOf, hrange⟩
  rule := by
    intro r hr
    obtain ⟨_, hrange, whole, hwhole, hspan, hstart, more, hchars⟩ := exists_of_mem_rules hr
    rw [hspan]
    refine ⟨⟨String.ofList more, ?_⟩, ?_⟩
    · rw [slice?_blankedText hwhole.partOf, Excerpt.text, hchars, String.ofList_append]
      rfl
    · rw [hrange, Excerpt.span, hstart, Excerpt.text, utf8ByteSize_ofList]
      rfl

/-- Characters of several bytes stand in the comments, around an empty value and a fallback. -/
theorem recorded_positions_refer_to_commented_text :
    let text := "/* é */ .a \x7b --x: /* ü */; color: var(--x, /* ö */ red) ! important; " ++
      "margin: 1px (2px) /* € */ \x7d"
    ((ofString text).rules.length = 1 ∧ (ofString text).declarations.length = 3 ∧
        (ofString text).usages.length = 1 ∧ ((ofString text).literals ["margin"]).length = 2) ∧
      Located text ["margin"] :=
  ⟨by decide +kernel, recorded_positions_refer_to_text _ _⟩

end Sheet

end StyleVars
