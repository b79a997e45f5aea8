import StyleVars.Proofs.Text.Excerpt
import StyleVars.Sheet.Reader

/-!
# The order of a sheet

The bodies of rules, the pieces of a body, the declarations in a piece and the references in a value
are found from left to right. So the references of a sheet stand in the order of its text, and none
overlaps another.
-/

namespace StyleVars

namespace Excerpt

variable {e rest name : Excerpt}

theorem restOf_readVariableName? (h : e.readVariableName? = some (name, rest)) :
    rest.RestOf e ∧ name = e.upTo rest := by
  rw [readVariableName?] at h
  split at h
  · cases h
  · rename_i after hskip
    dsimp only at h
    split at h
    · cases h
      exact ⟨(restOf_dropWhile isNameChar after).trans (restOf_skip? hskip), rfl⟩
    · cases h

theorem restOf_readOrdinaryName? (h : e.readOrdinaryName? = some (name, rest)) :
    rest.RestOf e ∧ name = e.upTo rest := by
  have hafter : ((e.skip? ['-']).getD e).RestOf e := by
    cases hskip : e.skip? ['-'] with
    | none => exact .refl e
    | some after => exact restOf_skip? hskip
  rw [readOrdinaryName?] at h
  split at h
  · cases h
  · split at h
    · cases h
      exact ⟨(restOf_dropWhile isNameChar _).trans hafter, rfl⟩
    · cases h

theorem partOf_withoutImportant (e : Excerpt) : e.withoutImportant.1.PartOf e := by
  rw [withoutImportant]
  split
  · exact ((partOf_trimEnd _).trans (partOf_take _ _)).trans (partOf_trimEnd e)
  · exact partOf_trimEnd e

end Excerpt

/-! ## References -/

namespace Reference

variable {e rest : Excerpt} {r : Reference}

theorem restOf_readEnd? {fallback : Option Excerpt} (h : readEnd? e = some (fallback, rest)) :
    rest.RestOf e := by
  rw [readEnd?] at h
  split at h
  · rename_i hskip
    cases h
    exact Excerpt.restOf_skip? hskip
  · split at h
    · cases h
    · rename_i body hskip
      obtain ⟨after, hafter, heq⟩ := Option.map_eq_some_iff.mp h
      cases heq
      exact ((Excerpt.restOf_skip? hafter).trans (Excerpt.restOf_dropWhile _ body)).trans
        (Excerpt.restOf_skip? hskip)

/-- A reference ends where what follows it starts. -/
theorem restOf_read? (h : read? e = some (r, rest)) : rest.RestOf e ∧ r.source = e.upTo rest := by
  simp only [read?, Option.bind_eq_bind, Option.bind_eq_some_iff] at h
  obtain ⟨opened, hopen, ⟨name, afterName⟩, hname, ⟨fallback, after⟩, hend, heq⟩ := h
  cases heq
  refine ⟨?_, rfl⟩
  apply (restOf_readEnd? hend).trans
  apply (Excerpt.restOf_dropWhile isBlank afterName).trans
  apply (Excerpt.restOf_readVariableName? hname).1.trans
  exact (Excerpt.restOf_dropWhile isBlank opened).trans (Excerpt.restOf_skip? hopen)

end Reference

theorem inOrder_references (e : Excerpt) : InOrder Reference.source e e.references := by
  fun_induction Excerpt.references e with
  | case1 e r rest hread _ ih =>
    obtain ⟨hrest, hsource⟩ := Reference.restOf_read? hread
    refine .cons ?_ hrest ?_ ih
    · rw [hsource]
      exact hrest.partOf_upTo
    · exact Nat.le_of_eq (hsource ▸ hrest.stop_upTo)
  | case2 => exact .nil
  | case3 e _ c cs hchars _ ih => exact ih.of_partOf (Excerpt.restOf_cons hchars).partOf

/-! ## Declarations -/

theorem readProperty?_spec {segment property value : Excerpt}
    (h : readProperty? segment = some (property, value)) :
    property.PartOf segment ∧ value.RestOf segment ∧ property.stop ≤ value.start := by
  rw [readProperty?] at h
  split at h
  · cases h
  · rename_i property rest hname
    obtain ⟨after, hskip, heq⟩ := Option.map_eq_some_iff.mp h
    cases heq
    have hstart := Excerpt.restOf_dropWhile isBlank segment
    have hread : rest.RestOf (segment.dropWhile isBlank) ∧
        property = (segment.dropWhile isBlank).upTo rest := by
      rcases Option.or_eq_some_iff.mp hname with hvariable | ⟨_, hordinary⟩
      · exact Excerpt.restOf_readVariableName? hvariable
      · exact Excerpt.restOf_readOrdinaryName? hordinary
    have hvalue := (Excerpt.restOf_skip? hskip).trans (Excerpt.restOf_dropWhile isBlank rest)
    refine ⟨?_, (hvalue.trans hread.1).trans hstart, ?_⟩
    · rw [hread.2]
      exact hread.1.partOf_upTo.trans hstart.partOf
    · rw [hread.2, hread.1.stop_upTo]
      exact hvalue.start_le

theorem Declaration.partOf_read {lines : LineTable} {segment : Excerpt} {d : Declaration}
    (h : Declaration.read lines segment = .ok d) :
    d.property.PartOf segment ∧ d.value.PartOf segment ∧ d.property.stop ≤ d.value.start := by
  rw [Declaration.read] at h
  split at h
  · cases h
  · rename_i property rest hproperty
    obtain ⟨hpart, hrest, hle⟩ := readProperty?_spec hproperty
    have hvalue : rest.trim.withoutImportant.1.PartOf rest :=
      (Excerpt.partOf_withoutImportant _).trans (Excerpt.partOf_trim rest)
    dsimp only at h
    split at h
    · cases h
    · cases h
      exact ⟨hpart, hvalue.trans hrest.partOf, Nat.le_trans hle hvalue.start_le⟩

/-! ## Blocks -/

namespace Excerpt

variable {e : Excerpt}

theorem restOf_after {p : Char → Bool} {c : Char} {cs : List Char}
    (h : (e.dropWhile p).chars = c :: cs) :
    (⟨(e.dropWhile p).start + c.utf8Size, cs⟩ : Excerpt).RestOf e :=
  (restOf_cons h).trans (restOf_dropWhile p e)

/-- The text of a block up to its closing brace. -/
theorem partOf_splitBlock (after : Excerpt) :
    (⟨after.start, (splitBlock 0 after.chars).1⟩ : Excerpt).PartOf after :=
  partOf_of_append (splitBlock_append 0 after.chars).symm

/-- What follows the closing brace of a block. -/
theorem restOf_splitBlock (after : Excerpt) {brace : Char} {later : List Char}
    (h : (splitBlock 0 after.chars).2 = brace :: later) :
    (⟨after.start + byteSize (splitBlock 0 after.chars).1 + brace.utf8Size, later⟩ :
      Excerpt).RestOf after := by
  refine ⟨(splitBlock 0 after.chars).1 ++ [brace], ?_, ?_⟩
  · have happend := splitBlock_append 0 after.chars
    rw [h] at happend
    simpa using happend.symm
  · simp [Nat.add_assoc]

theorem inOrder_pieces (e : Excerpt) : InOrder id e e.pieces := by
  fun_induction pieces e with
  | case1 e flat => exact .singleton (partOf_splitWhile _ e)
  | case2 e flat rest _ _ _ _ settled =>
    obtain ⟨after, hafter⟩ := dropTrailing_append (· != ';') flat.chars
    exact .singleton ((partOf_of_append hafter).trans (partOf_splitWhile _ e))
  | case3 e flat rest c cs hc _ settled blockStart _ brace later hrest _ ih =>
    obtain ⟨dropped, hdropped⟩ := dropTrailing_append (· != ';') flat.chars
    have hsettled : settled.PartOf flat := partOf_of_append hdropped
    have hblock : (⟨blockStart, cs⟩ : Excerpt).RestOf e := restOf_after hc
    have hlater := restOf_splitBlock ⟨blockStart, cs⟩ hrest
    refine .cons (hsettled.trans (partOf_splitWhile _ e)) (hlater.trans hblock) ?_ ih
    calc settled.stop ≤ flat.stop := hsettled.stop_le
      _ = rest.start := stop_splitWhile _ e
      _ ≤ blockStart := Nat.le_add_right _ _
      _ ≤ _ := hlater.start_le

theorem inOrder_segments (e : Excerpt) : InOrder id e e.segments := by
  have hparts := inOrder_splitTop (· == ';') e
  rw [segments]
  split
  · split
    · exact hparts.sublist (List.dropLast_sublist _)
    · exact hparts
  · exact hparts

/-- The segments of a body, in all its pieces. -/
theorem inOrder_bodySegments (body : Excerpt) :
    InOrder id body (body.pieces.flatMap (·.segments)) :=
  (inOrder_pieces body).flatMap fun piece _ => inOrder_segments piece

theorem not_mem_takeWhile (cs : List Char) : '{' ∉ cs.takeWhile (· != '{') := by
  intro hmem
  have hall := List.all_takeWhile (l := cs) (p := (· != '{'))
  have hne := List.all_eq_true.mp hall '{' hmem
  cases hne

/-- No block opens in a piece of a body. -/
theorem not_mem_of_mem_pieces {piece : Excerpt} (h : piece ∈ e.pieces) : '{' ∉ piece.chars := by
  have hsettled (e : Excerpt) :
      '{' ∉ dropTrailing (· != ';') (e.splitWhile (· != '{')).1.chars := by
    obtain ⟨dropped, hdropped⟩ := dropTrailing_append (· != ';') (e.splitWhile (· != '{')).1.chars
    exact fun hmem => not_mem_takeWhile e.chars ((partOf_of_append hdropped).subset hmem)
  fun_induction pieces e with
  | case1 e flat =>
    rw [List.mem_singleton.mp h]
    exact not_mem_takeWhile e.chars
  | case2 e =>
    rw [List.mem_singleton.mp h]
    exact hsettled e
  | case3 e flat rest c cs hc _ settled blockStart _ brace later hlater _ ih =>
    rcases List.mem_cons.mp h with rfl | hmem
    · exact hsettled e
    · exact ih hmem

/-- A segment of a body is passed over only if it is blank. -/
theorem isPassedOver_of_mem_bodySegments {body segment : Excerpt}
    (h : segment ∈ body.pieces.flatMap (·.segments)) :
    segment.isPassedOver = segment.trim.isEmpty := by
  obtain ⟨piece, hpiece, hsegment⟩ := List.mem_flatMap.mp h
  have hopen : '{' ∉ segment.chars := fun hmem =>
    not_mem_of_mem_pieces hpiece (((inOrder_segments piece).partOf hsegment).subset hmem)
  rw [isPassedOver, List.contains_eq_mem, decide_eq_false hopen, Bool.or_false]

end Excerpt

/-- The body of a chunk that is a rule. -/
def Chunk.body? : Chunk → Option Excerpt
  | .rule _ _ body _ => some body
  | _ => none

theorem inOrder_bodies (e : Excerpt) : InOrder id e (e.chunks.filterMap (·.body?)) := by
  fun_induction Excerpt.chunks e with
  | case1 => exact .nil
  | case2 e before rest later hrest _ after ih =>
    exact ih.of_partOf (Excerpt.restOf_after hrest).partOf
  | case3 e rest later hrest _ after _ ih =>
    exact ih.of_partOf (Excerpt.restOf_after hrest).partOf
  | case4 e before rest brace later hrest _ after _ _ _ ih =>
    exact ih.of_partOf (Excerpt.restOf_after hrest).partOf
  | case5 e before rest c cs hrest _ after _ _ _ body =>
    exact .singleton ((Excerpt.partOf_splitBlock after).trans (Excerpt.restOf_after hrest).partOf)
  | case6 e before rest c cs hrest _ after _ _ _ body _ brace later hlater _ ih =>
    have hafter : after.RestOf e := Excerpt.restOf_after hrest
    have hbody : body.PartOf e := (Excerpt.partOf_splitBlock after).trans hafter.partOf
    have hnext := (Excerpt.restOf_splitBlock after hlater).trans hafter
    exact InOrder.cons (x := body) hbody hnext (Nat.le_add_right _ _) ih

/-! ## The sheet -/

namespace Sheet

/-- The text that a sheet is read from. -/
def blanked (cs : List Char) : Excerpt := ⟨0, Comment.blank cs⟩

theorem declarations_ofChars (cs : List Char) :
    (ofChars cs).declarations = ((blanked cs).chunks.filterMap (·.body?)).flatMap fun body =>
      readsOf (readBody (.ofChars 0 cs) body) := by
  simp only [declarations, ofChars, blanked]
  induction (⟨0, Comment.blank cs⟩ : Excerpt).chunks with
  | nil => rfl
  | cons chunk rest ih =>
    cases chunk with
    | rule selector brace body closed =>
      exact congrArg (readsOf (readBody (.ofChars 0 cs) body) ++ ·) ih
    | statement text | group | close offset | tail text => exact ih

/-- The declaration that a segment holds, if it holds one. -/
def declaration? (lines : LineTable) (segment : Excerpt) : Option Declaration :=
  if segment.trim.isEmpty then none else (Declaration.read lines segment).toOption

theorem read_of_declaration? {lines : LineTable} {segment : Excerpt} {d : Declaration}
    (h : declaration? lines segment = some d) : Declaration.read lines segment = .ok d := by
  rw [declaration?] at h
  split at h
  · cases h
  · cases hread : Declaration.read lines segment with
    | error p =>
      rw [hread] at h
      cases h
    | ok found =>
      rw [hread] at h
      cases h
      rfl

/-- The declarations of a body are those of its segments. -/
theorem readsOf_readBody (lines : LineTable) (body : Excerpt) :
    readsOf (readBody lines body) =
      (body.pieces.flatMap (·.segments)).filterMap (declaration? lines) := by
  have hpassed : (body.pieces.flatMap (·.segments)).filter (!·.isPassedOver) =
      (body.pieces.flatMap (·.segments)).filter (!·.trim.isEmpty) :=
    List.filter_congr fun segment h => by rw [Excerpt.isPassedOver_of_mem_bodySegments h]
  rw [readsOf, readBody, hpassed, List.filterMap_map, List.filterMap_filter]
  congr 1
  funext segment
  rw [declaration?]
  cases segment.trim.isEmpty with
  | true => rfl
  | false =>
    simp only [Function.comp_apply]
    cases Declaration.read lines segment <;> rfl

theorem inOrder_readBody (lines : LineTable) (body : Excerpt) :
    InOrder Declaration.value body (readsOf (readBody lines body)) := by
  rw [readsOf_readBody]
  refine body.inOrder_bodySegments.filterMap fun segment _ d hd => ?_
  exact (Declaration.partOf_read (read_of_declaration? hd)).2.1

theorem inOrder_declarations (cs : List Char) :
    InOrder Declaration.value (blanked cs) (ofChars cs).declarations := by
  rw [declarations_ofChars]
  exact (inOrder_bodies _).flatMap fun body _ => inOrder_readBody _ body

theorem range_of_mem_usages {sheet : Sheet} {u : Usage} (h : u ∈ sheet.usages) :
    u.range = sheet.lines.rangeOf u.reference.source := by
  obtain ⟨d, _, hd⟩ := List.mem_flatMap.mp h
  rw [Declaration.usages] at hd
  split at hd
  · cases hd
  · obtain ⟨r, _, rfl⟩ := List.mem_map.mp hd
    rfl

/-- The references of a sheet stand in the order of its text. -/
theorem inOrder_usages (cs : List Char) :
    InOrder (·.reference.source) (blanked cs) (ofChars cs).usages := by
  refine (inOrder_declarations cs).flatMap fun d _ => ?_
  rw [Declaration.usages]
  split
  · exact .nil
  · exact (inOrder_references d.value).map fun r _ => (Excerpt.RestOf.refl r.source).partOf

end Sheet

end StyleVars
