import StyleVars.Proofs.Sheet.Brace
import StyleVars.Proofs.Sheet.Position
import StyleVars.Proofs.Sheet.Survey

/-!
# The layout of a sheet

The rules of a sheet follow each other without overlap, and so do the declarations of a rule. The
block of a rule opens right after its selector and runs to the brace that matches the opening one.
The declarations of the rule stand directly in that block: whatever is opened between the opening
brace and a declaration is closed again before it. So the contents of a nested block belong to no
rule. Definitions and usages are collected while the rules are read, and they come to what can be
read off the declarations of the rules, in their order.
-/

namespace StyleVars

namespace Excerpt

variable {e part inner piece : Excerpt}

/-! ## Outside nested blocks -/

/-- The part stands outside all blocks of `e`: the text before it closes what it opens, and the part
holds no brace. -/
def OutsideBlocks (part e : Excerpt) : Prop :=
  ∃ before after, e.chars = before ++ part.chars ++ after ∧
    part.start = e.start + byteSize before ∧ depthAfter 0 before = some 0 ∧ Braceless part.chars

theorem OutsideBlocks.of_partOf (h : part.OutsideBlocks e) (hinner : inner.PartOf part) :
    inner.OutsideBlocks e := by
  obtain ⟨before, after, hchars, hstart, hdepth, hbraceless⟩ := h
  obtain ⟨before', after', hchars', hstart'⟩ := hinner
  have hmem {c : Char} (hc : c ∈ before' ++ inner.chars) : isBrace c = false :=
    hbraceless c (hchars' ▸ List.mem_append_left _ hc)
  refine ⟨before ++ before', after' ++ after, ?_, ?_, ?_, ?_⟩
  · simp only [hchars, hchars', List.append_assoc]
  · rw [hstart', hstart, byteSize_append, Nat.add_assoc]
  · rw [depthAfter_append, hdepth]
    exact depthAfter_of_braceless fun c hc => hmem (List.mem_append_left _ hc)
  · intro c hc
    exact hmem (List.mem_append_right _ hc)

/-- What stands outside the blocks of a rest stands outside those of the whole, if the text before
the rest closes what it opens. -/
theorem OutsideBlocks.of_append {rest : Excerpt} {first : List Char} (h : part.OutsideBlocks rest)
    (hchars : e.chars = first ++ rest.chars) (hstart : rest.start = e.start + byteSize first)
    (hfirst : depthAfter 0 first = some 0) : part.OutsideBlocks e := by
  obtain ⟨before, after, hrest, hbefore, hdepth, hbraceless⟩ := h
  refine ⟨first ++ before, after, ?_, ?_, ?_, hbraceless⟩
  · simp only [hchars, hrest, List.append_assoc]
  · rw [hbefore, hstart, byteSize_append, Nat.add_assoc]
  · rw [depthAfter_append, hfirst]
    exact hdepth

/-- Text that opens no block holds no brace at all, where nothing is closed that is not open. -/
theorem braceless_of_not_mem {xs ys : List Char} (h : NeverOverclosed (xs ++ ys))
    (hopen : '{' ∉ xs) : Braceless xs := by
  have hclose : '}' ∉ xs := by
    have hle := h xs (List.prefix_append xs ys)
    rw [List.count_eq_zero.mpr hopen] at hle
    exact List.count_eq_zero.mp (Nat.le_zero.mp hle)
  intro c hc
  simp only [isBrace, Bool.or_eq_false_iff, beq_eq_false_iff_ne]
  constructor
  · rintro rfl
    exact hopen hc
  · rintro rfl
    exact hclose hc

/-- What stands before the first nested block. -/
theorem outsideBlocks_flat {result : Nat} (h : depthAfter 0 e.chars = some result) :
    (e.splitWhile (· != '{')).1.OutsideBlocks e := by
  have happend : e.chars.takeWhile (· != '{') ++ e.chars.dropWhile (· != '{') = e.chars :=
    List.takeWhile_append_dropWhile
  have hnever : NeverOverclosed (e.chars.takeWhile (· != '{') ++ e.chars.dropWhile (· != '{')) := by
    rw [happend]
    exact neverOverclosed_of_depthAfter h
  exact ⟨[], _, happend.symm, rfl, rfl, braceless_of_not_mem hnever (not_mem_takeWhile e.chars)⟩

/-- What is left of that without the prelude of the nested block. -/
theorem outsideBlocks_settled {result : Nat} (h : depthAfter 0 e.chars = some result) :
    (⟨e.start, dropTrailing (· != ';') (e.splitWhile (· != '{')).1.chars⟩ :
      Excerpt).OutsideBlocks e := by
  obtain ⟨dropped, hdropped⟩ := dropTrailing_append (· != ';') (e.splitWhile (· != '{')).1.chars
  exact (outsideBlocks_flat h).of_partOf (partOf_of_append hdropped)

/-- The pieces of a body stand outside its nested blocks. -/
theorem outsideBlocks_pieces {result : Nat} (h : depthAfter 0 e.chars = some result)
    (hpiece : piece ∈ e.pieces) : piece.OutsideBlocks e := by
  fun_induction pieces e with
  | case1 e flat =>
    rw [List.mem_singleton.mp hpiece]
    exact outsideBlocks_flat h
  | case2 e =>
    rw [List.mem_singleton.mp hpiece]
    exact outsideBlocks_settled h
  | case3 e flat rest c cs hc _ settled blockStart _ brace later hlater _ ih =>
    rcases List.mem_cons.mp hpiece with rfl | hmem
    · exact outsideBlocks_settled h
    · -- The text up to the end of the nested block closes what it opens, and the pieces after it
      -- are those of the rest.
      have hopen : c = '{' := by simpa using dropWhile_head hc
      have hchars : e.chars = flat.chars ++ '{' :: ((splitBlock 0 cs).1 ++ ['}']) ++ later := by
        rw [List.append_assoc, List.cons_append, ← append_of_closed hlater, ← hopen, ← hc]
        exact List.takeWhile_append_dropWhile.symm
      have hflat : Braceless flat.chars := by
        obtain ⟨_, _, _, _, _, hbraceless⟩ := outsideBlocks_flat h
        exact hbraceless
      have hfirst :
          depthAfter 0 (flat.chars ++ '{' :: ((splitBlock 0 cs).1 ++ ['}'])) = some 0 := by
        rw [depthAfter_append, depthAfter_of_braceless hflat]
        exact depthAfter_block hlater 0
      rw [hchars, depthAfter_append, hfirst] at h
      refine (ih h hmem).of_append hchars ?_ hfirst
      have hstart : blockStart = e.start + byteSize flat.chars + '{'.utf8Size := by
        rw [← hopen]
        rfl
      simp only [splitBlock_snd_eq hlater, hstart, byteSize_append, byteSize_cons, byteSize_nil]
      omega

/-! ## The blocks of rules -/

/-- The body of a block of `e` whose opening brace stands at `brace`. The block runs to the brace
that matches the opening one or, if it is not closed, to the end of `e`. -/
structure IsBlockIn (brace : Nat) (body : Excerpt) (closed : Bool) (e : Excerpt) : Prop where
  opening : (⟨brace, ['{']⟩ : Excerpt).PartOf e
  start_body : body.start = brace + 1
  partOf_body : body.PartOf e
  depth : ∃ result, depthAfter 0 body.chars = some result
  closed_spec : closed → (⟨body.stop, ['}']⟩ : Excerpt).PartOf e ∧ depthAfter 0 body.chars = some 0
  unclosed_spec : closed = false → body.stop = e.stop

theorem IsBlockIn.of_restOf {brace : Nat} {body rest : Excerpt} {closed : Bool}
    (h : IsBlockIn brace body closed rest) (hrest : rest.RestOf e) :
    IsBlockIn brace body closed e where
  opening := h.opening.trans hrest.partOf
  start_body := h.start_body
  partOf_body := h.partOf_body.trans hrest.partOf
  depth := h.depth
  closed_spec := by
    intro hclosed
    obtain ⟨hclosing, hbalanced⟩ := h.closed_spec hclosed
    exact ⟨hclosing.trans hrest.partOf, hbalanced⟩
  unclosed_spec := by
    intro hunclosed
    rw [h.unclosed_spec hunclosed, hrest.stop_eq]

/-- The braces around a body and what stands before and after them make up the text. -/
theorem isBlockIn_of_append {header body later : List Char} {closed : Bool} {result : Nat}
    (hchars : e.chars = header ++ '{' :: body ++ closing closed ++ later)
    (hlater : closed = false → later = []) (hdepth : depthAfter 0 body = some result)
    (hresult : closed → result = 0) :
    IsBlockIn (e.start + byteSize header) ⟨e.start + byteSize header + 1, body⟩ closed e where
  opening := ⟨header, body ++ closing closed ++ later, by simpa using hchars, rfl⟩
  start_body := rfl
  partOf_body := by
    refine ⟨header ++ ['{'], closing closed ++ later, by simpa using hchars, ?_⟩
    rw [byteSize_append, Nat.add_assoc]
    rfl
  depth := ⟨result, hdepth⟩
  closed_spec := by
    intro hclosed
    subst hclosed
    refine ⟨⟨header ++ '{' :: body, later, by simpa [closing] using hchars, ?_⟩, ?_⟩
    · simp only [stop, byteSize_append, byteSize_cons, show '{'.utf8Size = 1 from rfl]
      omega
    · rw [hdepth, hresult rfl]
  unclosed_spec := by
    intro hunclosed
    subst hunclosed
    rw [hlater rfl] at hchars
    simp only [stop, hchars, show closing false = [] from rfl, List.append_nil, byteSize_append,
      byteSize_cons, show '{'.utf8Size = 1 from rfl]
    omega

end Excerpt

/-- The selector stands right before the brace at `brace`, with nothing but blanks in between, and
holds nothing that ends a chunk. -/
structure Excerpt.IsHeaderAt (selector : Excerpt) (brace : Nat) (e : Excerpt) : Prop where
  gap : ∃ gap, (⟨selector.start, selector.chars ++ gap⟩ : Excerpt).PartOf e ∧
    brace = (⟨selector.start, selector.chars ++ gap⟩ : Excerpt).stop ∧ ∀ c ∈ gap, isBlank c
  plain : ∀ c ∈ selector.chars, endsChunk c = false

/-- A chunk that is a rule has a block after its selector. -/
def Chunk.HasBlock (e : Excerpt) : Chunk → Prop
  | .rule selector brace body closed =>
    selector.IsHeaderAt brace e ∧ Excerpt.IsBlockIn brace body closed e
  | _ => True

theorem Chunk.HasBlock.of_restOf {chunk : Chunk} {e rest : Excerpt} (h : chunk.HasBlock rest)
    (hrest : rest.RestOf e) : chunk.HasBlock e := by
  cases chunk with
  | rule selector brace body closed =>
    obtain ⟨⟨⟨gap, hpart, hbrace, hblank⟩, hplain⟩, hblock⟩ := h
    exact ⟨⟨⟨gap, hpart.trans hrest.partOf, hbrace, hblank⟩, hplain⟩, hblock.of_restOf hrest⟩
  | _ => trivial

namespace Excerpt

variable {e part inner piece : Excerpt}

theorem IsHeaderAt.stop_le {selector : Excerpt} {brace : Nat} (h : selector.IsHeaderAt brace e) :
    selector.stop ≤ brace := by
  obtain ⟨gap, -, rfl, -⟩ := h.gap
  simp only [stop, byteSize_append]
  omega

/-- The header of a chunk is what stands before its end, without the blanks around it. -/
theorem isHeaderAt_trim (e : Excerpt) :
    (e.splitWhile fun c => !endsChunk c).1.trim.IsHeaderAt
      (e.dropWhile fun c => !endsChunk c).start e := by
  let header := (e.splitWhile fun c => !endsChunk c).1
  obtain ⟨gap, hgap, hblank⟩ := exists_dropTrailing_append isBlank (header.dropWhile isBlank).chars
  have hcore : (⟨header.trim.start, header.trim.chars ++ gap⟩ : Excerpt) =
      header.dropWhile isBlank := by
    change (⟨(header.dropWhile isBlank).start, dropTrailing isBlank _ ++ gap⟩ : Excerpt) = _
    rw [← hgap]
  have hrest : (header.dropWhile isBlank).RestOf header := restOf_dropWhile isBlank header
  refine ⟨⟨gap, ?_, ?_, hblank⟩, fun c hc => ?_⟩
  · rw [hcore]
    exact hrest.partOf.trans (partOf_splitWhile _ e)
  · rw [hcore, hrest.stop_eq]
    rfl
  · have hmem : c ∈ e.chars.takeWhile fun c => !endsChunk c := (partOf_trim header).subset hc
    simpa using List.all_eq_true.mp List.all_takeWhile c hmem

/-- A brace that opens no group opens the block of a rule. -/
theorem hasBlock_of_dropWhile {cs body later : List Char} {closed : Bool} {result : Nat}
    (hrest : (e.dropWhile fun c => !endsChunk c).chars = '{' :: cs)
    (hcs : cs = body ++ closing closed ++ later) (hlater : closed = false → later = [])
    (hdepth : depthAfter 0 body = some result) (hresult : closed → result = 0) :
    (Chunk.rule (e.splitWhile fun c => !endsChunk c).1.trim
      (e.dropWhile fun c => !endsChunk c).start
      ⟨(e.dropWhile fun c => !endsChunk c).start + 1, body⟩ closed).HasBlock e :=
  ⟨e.isHeaderAt_trim, isBlockIn_of_append (chars_of_dropWhile hrest hcs) hlater hdepth hresult⟩

theorem hasBlock_chunks (e : Excerpt) : ∀ chunk ∈ e.chunks, chunk.HasBlock e := by
  fun_induction chunks e with
  | case1 e before =>
    intro chunk hchunk
    rw [List.mem_singleton.mp hchunk]
    trivial
  | case2 e before rest later hrest _ after ih =>
    rw [List.forall_mem_cons]
    exact ⟨trivial, fun chunk hchunk => (ih chunk hchunk).of_restOf (restOf_after hrest)⟩
  | case3 e rest later hrest _ after _ ih =>
    rw [List.forall_mem_cons]
    exact ⟨trivial, fun chunk hchunk => (ih chunk hchunk).of_restOf (restOf_after hrest)⟩
  | case4 e before rest c cs hrest _ after _ _ _ ih =>
    rw [List.forall_mem_cons]
    exact ⟨trivial, fun chunk hchunk => (ih chunk hchunk).of_restOf (restOf_after hrest)⟩
  | case5 e before rest c cs hrest _ after hsemicolon hclose _ body _ hunclosed =>
    have hopen := eq_open_of_dropWhile hrest hsemicolon hclose
    subst hopen
    obtain ⟨result, hdepth, _⟩ := depthAfter_splitBlock 0 cs
    have hcs : cs = body.chars ++ closing false ++ [] := by
      have happend := splitBlock_append 0 cs
      rw [hunclosed] at happend
      simpa [closing] using happend.symm
    rw [List.forall_mem_cons]
    refine ⟨hasBlock_of_dropWhile hrest hcs (fun _ => rfl) hdepth (fun hclosed => by cases hclosed),
      fun chunk hchunk => ?_⟩
    rw [List.mem_singleton.mp hchunk]
    trivial
  | case6 e before rest c cs hrest _ after hsemicolon hclose _ body _ brace later hlater _ ih =>
    have hopen := eq_open_of_dropWhile hrest hsemicolon hclose
    subst hopen
    have hnext := (restOf_splitBlock after hlater).trans (restOf_after hrest)
    rw [List.forall_mem_cons]
    refine ⟨hasBlock_of_dropWhile hrest (append_of_closed hlater) (fun hopen => by cases hopen)
      (depthAfter_splitBlock_of_closed hlater) (fun _ => rfl), fun chunk hchunk => ?_⟩
    exact (ih chunk hchunk).of_restOf hnext

end Excerpt

namespace Chunk

/-- Rules follow each other, and none starts before the text does. -/
theorem ordered_rules (lines : LineTable) (e : Excerpt) :
    (e.chunks.filterMap (·.rule? lines)).Pairwise (fun a b => a.span.stop ≤ b.span.start) ∧
      ∀ r ∈ e.chunks.filterMap (·.rule? lines), e.start ≤ r.span.start := by
  have hselector (e : Excerpt) : e.start ≤ (e.splitWhile fun c => !endsChunk c).1.trim.start :=
    ((Excerpt.partOf_trim _).trans (Excerpt.partOf_splitWhile _ e)).start_le
  fun_induction Excerpt.chunks e with
  | case1 e before => simp [rule?]
  | case2 e before rest later hrest _ after ih =>
    have hle := (Excerpt.restOf_after hrest).start_le
    exact ⟨ih.1, fun r hr => Nat.le_trans hle (ih.2 r hr)⟩
  | case3 e rest later hrest _ after _ ih =>
    have hle := (Excerpt.restOf_after hrest).start_le
    exact ⟨ih.1, fun r hr => Nat.le_trans hle (ih.2 r hr)⟩
  | case4 e before rest c cs hrest _ after _ _ _ ih =>
    have hle := (Excerpt.restOf_after hrest).start_le
    exact ⟨ih.1, fun r hr => Nat.le_trans hle (ih.2 r hr)⟩
  | case5 e before rest c cs hrest _ after _ _ _ body =>
    refine ⟨List.pairwise_singleton _ _, fun r hr => ?_⟩
    rw [List.mem_singleton.mp hr]
    exact hselector e
  | case6 e before rest c cs hrest _ after _ _ _ body _ brace later hlater _ ih =>
    have hnext := (Excerpt.restOf_splitBlock after hlater).trans (Excerpt.restOf_after hrest)
    have hstop : body.stop + 1 = body.stop + brace.utf8Size := by
      rw [splitBlock_snd_eq hlater]
      rfl
    refine ⟨List.pairwise_cons.mpr ⟨fun r hr => ?_, ih.1⟩,
      List.forall_mem_cons.mpr ⟨hselector e, fun r hr => ?_⟩⟩
    · exact Nat.le_trans (Nat.le_of_eq hstop) (ih.2 r hr)
    · exact Nat.le_trans hnext.start_le (ih.2 r hr)

end Chunk

/-! ## The sheet -/

namespace Sheet

/-- A declaration of a rule stands outside the blocks that are nested in the rule. -/
theorem outsideBlocks_of_mem_readBody {lines : LineTable} {body : Excerpt} {result : Nat}
    (hdepth : depthAfter 0 body.chars = some result) {d : Declaration}
    (h : d ∈ readsOf (readBody lines body)) :
    d.property.OutsideBlocks body ∧ d.value.OutsideBlocks body ∧
      d.property.stop ≤ d.value.start := by
  rw [readsOf_readBody] at h
  obtain ⟨segment, hmem, hsome⟩ := List.mem_filterMap.mp h
  obtain ⟨piece, hpiece, hsegment⟩ := List.mem_flatMap.mp hmem
  obtain ⟨hproperty, hvalue, hle⟩ := Declaration.partOf_read (read_of_declaration? hsome)
  have houtside : segment.OutsideBlocks body :=
    (Excerpt.outsideBlocks_pieces hdepth hpiece).of_partOf
      ((Excerpt.inOrder_segments piece).partOf hsegment)
  exact ⟨houtside.of_partOf hproperty, houtside.of_partOf hvalue, hle⟩

/-- The declarations of a rule follow each other. -/
theorem ordered_readBody (lines : LineTable) (body : Excerpt) :
    (readsOf (readBody lines body)).Pairwise fun a b => a.value.stop ≤ b.property.start := by
  rw [readsOf_readBody]
  refine List.pairwise_filterMap.mpr (body.inOrder_bodySegments.ordered.imp ?_)
  intro segment next hle a ha b hb
  have hvalue := (Declaration.partOf_read (read_of_declaration? ha)).2.1
  have hproperty := (Declaration.partOf_read (read_of_declaration? hb)).1
  calc a.value.stop ≤ segment.stop := hvalue.stop_le
    _ ≤ next.start := hle
    _ ≤ b.property.start := hproperty.start_le

/-- A rule starts with its selector, and its declarations are those of its block. -/
theorem exists_block_of_mem_rules {cs : List Char} {r : Rule} (h : r ∈ (ofChars cs).rules) :
    ∃ brace body closed, Excerpt.IsBlockIn brace body closed (blanked cs) ∧
      r.span = ⟨r.selector.start, Excerpt.ruleStop body closed⟩ ∧
      r.selector.IsHeaderAt brace (blanked cs) ∧
      r.declarations = readsOf (readBody (.ofChars 0 cs) body) := by
  obtain ⟨chunk, hchunk, hsome⟩ := List.mem_filterMap.mp h
  have hblock := Excerpt.hasBlock_chunks _ chunk hchunk
  cases chunk with
  | rule selector brace body closed =>
    cases hsome
    exact ⟨brace, body, closed, hblock.2, rfl, hblock.1, rfl⟩
  | statement text | group | close offset | tail text => cases hsome

/-- The block of a rule of the sheet that is read from `text`. The rule starts with its selector,
and the first brace after that, at `opening`, opens the block. The block runs to the brace at
`closing` that matches the opening one, or to the end of the text if there is none. -/
structure HasBlock (text : String) (r : Rule) (opening closing : Nat) : Prop where
  start : r.span.start = r.selector.start
  selector : '{' ∉ r.selector.chars ∧ '}' ∉ r.selector.chars ∧ ';' ∉ r.selector.chars
  header : ∃ gap, (⟨r.span.start, opening⟩ : Span).slice? (blankedText text) =
    some (r.selector.text ++ gap) ∧ ∀ c ∈ gap.toList, isBlank c
  opens : (⟨opening, opening + 1⟩ : Span).slice? (blankedText text) = some "\x7b"
  closes : ∃ inner, (⟨opening + 1, closing⟩ : Span).slice? (blankedText text) = some inner ∧
    ((r.span.stop = closing + 1 ∧ BracesBalanced inner.toList ∧
        (⟨closing, closing + 1⟩ : Span).slice? (blankedText text) = some "\x7d") ∨
      (r.span.stop = closing ∧ NeverOverclosed inner.toList ∧
        closing = (blankedText text).utf8ByteSize))

/-- A declaration that stands directly in the block between `opening` and `closing`: every block
that is opened between the opening brace and the declaration is closed before the declaration. -/
structure StandsDirectly (text : String) (opening closing : Nat) (d : Declaration) : Prop where
  opening_lt : opening < d.property.start
  depth : ∃ before, (⟨opening + 1, d.property.start⟩ : Span).slice? (blankedText text) =
    some before ∧ BracesBalanced before.toList
  property_le : d.property.stop ≤ d.value.start
  le_closing : d.value.stop ≤ closing
  value : '{' ∉ d.value.chars ∧ '}' ∉ d.value.chars

section Assembly

variable {text : String} {brace : Nat} {body : Excerpt} {closed : Bool}

theorem hasBlock_of_isBlockIn {r : Rule}
    (h : Excerpt.IsBlockIn brace body closed (blanked text.toList))
    (hspan : r.span = ⟨r.selector.start, Excerpt.ruleStop body closed⟩)
    (hselector : r.selector.IsHeaderAt brace (blanked text.toList)) :
    HasBlock text r brace body.stop where
  start := by rw [hspan]
  selector := by
    refine ⟨fun hmem => ?_, fun hmem => ?_, fun hmem => ?_⟩ <;> cases hselector.plain _ hmem
  header := by
    obtain ⟨gap, hpart, hbrace, hblank⟩ := hselector.gap
    refine ⟨String.ofList gap, ?_, by rwa [String.toList_ofList]⟩
    rw [hspan, hbrace, Excerpt.text, ← String.ofList_append]
    exact slice?_blankedText hpart
  opens := slice?_blankedText h.opening
  closes := by
    obtain ⟨result, hdepth⟩ := h.depth
    have hbody := slice?_blankedText h.partOf_body
    rw [Excerpt.span, h.start_body] at hbody
    refine ⟨body.text, hbody, ?_⟩
    rw [hspan, Excerpt.text, String.toList_ofList]
    cases closed with
    | true =>
      obtain ⟨hclosing, hbalanced⟩ := h.closed_spec rfl
      exact .inl ⟨rfl, bracesBalanced_iff.mpr hbalanced, slice?_blankedText hclosing⟩
    | false =>
      refine .inr ⟨rfl, neverOverclosed_of_depthAfter hdepth, ?_⟩
      rw [h.unclosed_spec rfl, blankedText, utf8ByteSize_ofList]
      exact Nat.zero_add _

theorem standsDirectly_of_isBlockIn {lines : LineTable} {d : Declaration}
    (h : Excerpt.IsBlockIn brace body closed (blanked text.toList))
    (hd : d ∈ readsOf (readBody lines body)) : StandsDirectly text brace body.stop d := by
  obtain ⟨result, hdepth⟩ := h.depth
  obtain ⟨hproperty, ⟨_, _, hchars, hstart, _, hbraceless⟩, hle⟩ :=
    outsideBlocks_of_mem_readBody hdepth hd
  obtain ⟨before, after, hbody, hbefore, hbalanced, _⟩ := hproperty
  have hpart : (⟨body.start, before⟩ : Excerpt).PartOf body :=
    Excerpt.partOf_of_append (hbody.trans (List.append_assoc _ _ _))
  have hslice := slice?_blankedText (hpart.trans h.partOf_body)
  constructor
  · rw [hbefore, h.start_body]
    omega
  · refine ⟨String.ofList before, ?_, ?_⟩
    · rw [hbefore, ← h.start_body]
      exact hslice
    · rw [String.toList_ofList]
      exact bracesBalanced_iff.mpr hbalanced
  · exact hle
  · exact Excerpt.PartOf.stop_le ⟨_, _, hchars, hstart⟩
  · constructor
    · intro hmem
      cases hbraceless _ hmem
    · intro hmem
      cases hbraceless _ hmem

end Assembly

/-- Definitions use nothing. -/
theorem flatMap_usages_eq (lines : LineTable) (ds : List Declaration) :
    ds.flatMap (·.usages lines) =
      (ds.filter fun d => !isVariableName d.property.chars).flatMap fun d =>
        d.value.references.map fun found =>
          ⟨found, d.property.text, lines.rangeOf found.source⟩ := by
  induction ds with
  | nil => rfl
  | cons d ds ih =>
    rw [List.flatMap_cons, ih, Declaration.usages, Declaration.isDefinition]
    cases hname : isVariableName d.property.chars with
    | true => simp [hname]
    | false => simp [hname]

end Sheet

namespace Survey

open Sheet

/-- What a survey of `text` has collected belongs together: its rules and their declarations follow
each other, declarations stand directly in the blocks of their rules, and the definitions and usages
are those of the declarations of the rules. -/
structure LaidOut (text : String) (s : Survey) : Prop where
  rules : s.rules.Pairwise fun a b => a.span.stop ≤ b.span.start
  rule : ∀ r ∈ s.rules, ∃ opening closing, HasBlock text r opening closing ∧
    r.declarations.Pairwise (fun a b => a.value.stop ≤ b.property.start) ∧
    ∀ d ∈ r.declarations, StandsDirectly text opening closing d
  definitions : s.definitions = s.rules.flatMap fun r =>
    r.declarations.filter fun d => isVariableName d.property.chars
  usages : s.usages = s.rules.flatMap fun r =>
    (r.declarations.filter fun d => !isVariableName d.property.chars).flatMap fun d =>
      d.value.references.map fun found =>
        ⟨found, d.property.text, (LineTable.ofString text).rangeOf found.source⟩

/-- Whatever properties are checked, the survey of a text is laid out as the text is. -/
theorem laidOut_ofString (checked : List String) (text : String) :
    (ofString checked text).LaidOut text := by
  rw [ofString, ofChars_eq_survey]
  constructor
  · exact (Chunk.ordered_rules _ _).1
  · intro r hr
    obtain ⟨brace, body, closed, hblock, hspan, hselector, hdeclarations⟩ :=
      exists_block_of_mem_rules hr
    refine ⟨brace, body.stop, hasBlock_of_isBlockIn hblock hspan hselector, ?_⟩
    rw [hdeclarations]
    exact ⟨ordered_readBody _ _, fun d hd => standsDirectly_of_isBlockIn hblock hd⟩
  · exact List.filter_flatMap
  · change (Sheet.ofChars text.toList).usages = _
    rw [Sheet.usages, declarations, List.flatMap_assoc]
    simp only [flatMap_usages_eq]
    rfl

end Survey

end StyleVars
