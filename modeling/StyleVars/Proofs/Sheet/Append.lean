import StyleVars.Proofs.Sheet.Position
import StyleVars.Proofs.Sheet.Seam
import StyleVars.Proofs.Text.Lines

/-!
# Sheets that follow each other

What is read from a text does not depend on the texts around it: its offsets are raised by the size
of what stands before, and its positions are counted from the end of that. Hence the sheet of two
texts, the first of which leaves nothing open, holds what the sheet of the first one holds and then
what the sheet of the second one holds, moved behind the first.
-/

namespace StyleVars

/-- How far a text is moved. -/
structure Displacement where
  bytes : Nat
  /-- The position to which the start of the text moves. -/
  base : Position

/-- The displacement of a text that stands behind `before`. -/
def Displacement.behind (before : List Char) : Displacement := ⟨byteSize before, .endOf before⟩

/-! ## Moved data -/

def Range.move (m : Displacement) (r : Range) : Range := ⟨m.base + r.start, m.base + r.stop⟩

def Span.move (m : Displacement) (s : Span) : Span := ⟨m.bytes + s.start, m.bytes + s.stop⟩

/-- The names, values and flags stay as they are. -/
def Declaration.move (m : Displacement) (d : Declaration) : Declaration where
  property := d.property.shift m.bytes
  value := d.value.shift m.bytes
  important := d.important
  range := d.range.move m

def Rule.move (m : Displacement) (r : Rule) : Rule where
  selector := r.selector.shift m.bytes
  selectorRange := r.selectorRange.move m
  span := r.span.move m
  declarations := r.declarations.map (.move m)

def Usage.move (m : Displacement) (u : Usage) : Usage where
  reference := u.reference.shift m.bytes
  property := u.property
  range := u.range.move m

def LiteralUse.move (m : Displacement) (l : LiteralUse) : LiteralUse where
  property := l.property
  value := l.value.shift m.bytes
  isFallback := l.isFallback
  range := l.range.move m

/-! A text with nothing before it stays where it is. -/

theorem Range.move_behind_nil (r : Range) : r.move (.behind []) = r := by
  show (⟨⟨0, 0⟩ + r.start, ⟨0, 0⟩ + r.stop⟩ : Range) = r
  rw [Position.zero_add, Position.zero_add]

theorem Span.move_behind_nil (s : Span) : s.move (.behind []) = s := by
  show (⟨0 + s.start, 0 + s.stop⟩ : Span) = s
  rw [Nat.zero_add, Nat.zero_add]

theorem Declaration.move_behind_nil (d : Declaration) : d.move (.behind []) = d := by
  rw [move, Range.move_behind_nil]
  show (⟨d.property.shift 0, d.value.shift 0, d.important, d.range⟩ : Declaration) = d
  rw [Excerpt.shift_zero, Excerpt.shift_zero]

theorem Rule.move_behind_nil (r : Rule) : r.move (.behind []) = r := by
  have hid : Declaration.move (.behind []) = id := funext Declaration.move_behind_nil
  rw [move, Range.move_behind_nil, Span.move_behind_nil, hid, List.map_id]
  show (⟨r.selector.shift 0, r.selectorRange, r.span, r.declarations⟩ : Rule) = r
  rw [Excerpt.shift_zero]

theorem Usage.move_behind_nil (u : Usage) : u.move (.behind []) = u := by
  rw [move, Range.move_behind_nil]
  show (⟨u.reference.shift 0, u.property, u.range⟩ : Usage) = u
  rw [Reference.shift_zero]

theorem LiteralUse.move_behind_nil (l : LiteralUse) : l.move (.behind []) = l := by
  rw [move, Range.move_behind_nil]
  show (⟨l.property, l.value.shift 0, l.isFallback, l.range⟩ : LiteralUse) = l
  rw [Excerpt.shift_zero]

/-! ## Positions -/

/-- The lines `lines'` of a longer text have the positions of `lines`, moved, up to an offset. -/
def Displacement.Carries (m : Displacement) (lines : LineTable) (limit : Nat)
    (lines' : LineTable) : Prop :=
  ∀ offset ≤ limit, lines'.position (m.bytes + offset) = m.base + lines.position offset

theorem carries_behind (before cs after : List Char) :
    (Displacement.behind before).Carries (.ofChars 0 cs) (byteSize cs)
      (.ofChars 0 (before ++ cs ++ after)) := by
  intro offset hoffset
  exact LineTable.position_between hoffset after

section Carried

variable {m : Displacement} {lines lines' : LineTable} {limit : Nat}
  (hcarries : m.Carries lines limit lines')

include hcarries

theorem Displacement.Carries.range {start stop : Nat} (hstart : start ≤ limit)
    (hstop : stop ≤ limit) :
    lines'.range (m.bytes + start) (m.bytes + stop) = (lines.range start stop).move m := by
  rw [LineTable.range, hcarries start hstart, hcarries stop hstop]
  rfl

theorem Displacement.Carries.rangeOf {e : Excerpt} (h : e.stop ≤ limit) :
    lines'.rangeOf (e.shift m.bytes) = (lines.rangeOf e).move m := by
  rw [LineTable.rangeOf, Excerpt.start_shift, Excerpt.stop_shift]
  exact hcarries.range (Nat.le_trans (Nat.le_add_right _ _) h) h

/-! ## What a declaration holds -/

namespace Declaration

variable {d : Declaration} (h : d.value.stop ≤ limit)

include h

theorem usages_move : (d.move m).usages lines' = (d.usages lines).map (.move m) := by
  have hreferences : (d.move m).value.references = d.value.references.map (.shift m.bytes) :=
    Excerpt.references_shift m.bytes d.value
  have hdefinition : (d.move m).isDefinition = d.isDefinition := rfl
  rw [usages, usages, hreferences, hdefinition]
  split
  · rfl
  · rw [List.map_map, List.map_map]
    refine List.map_congr_left fun r hr => ?_
    have hstop := ((inOrder_references d.value).partOf hr).stop_le
    show (⟨r.shift m.bytes, d.property.text, lines'.rangeOf (r.source.shift m.bytes)⟩ : Usage) = _
    rw [hcarries.rangeOf (Nat.le_trans hstop h)]
    rfl

theorem fallbackLiterals_move :
    (d.move m).fallbackLiterals lines' = (d.fallbackLiterals lines).map (.move m) := by
  have hfallbacks : (d.move m).value.references.filterMap (·.fallback) =
      (d.value.references.filterMap (·.fallback)).map (.shift m.bytes) := by
    rw [show (d.move m).value.references = _ from Excerpt.references_shift m.bytes d.value,
      List.filterMap_map, List.map_filterMap]
    rfl
  rw [fallbackLiterals, hfallbacks, fallbackLiterals, List.filterMap_map, List.map_filterMap]
  refine List.filterMap_congr fun f hf => ?_
  obtain ⟨r, hr, hfallback⟩ := List.mem_filterMap.mp hf
  have hpart := (Reference.firmIn_fallback_of_mem_references hr hfallback).partOf
  rw [Function.comp_apply, Excerpt.chars_shift, hcarries.rangeOf (Nat.le_trans hpart.stop_le h)]
  split
  · rfl
  · rfl

theorem valueLiterals_move :
    (d.move m).valueLiterals lines' = (d.valueLiterals lines).map (.move m) := by
  have hliteral {e : Excerpt} (hpart : e.PartOf d.value) :
      (⟨d.property.text, e.shift m.bytes, false, lines'.rangeOf (e.shift m.bytes)⟩ : LiteralUse) =
        (⟨d.property.text, e, false, lines.rangeOf e⟩ : LiteralUse).move m := by
    rw [hcarries.rangeOf (Nat.le_trans hpart.stop_le h)]
    rfl
  have htokens : (d.move m).value.tokens = d.value.tokens.map (.shift m.bytes) :=
    Excerpt.tokens_shift m.bytes d.value
  have hchars : (d.move m).value.chars = d.value.chars := rfl
  rw [valueLiterals, valueLiterals, hchars]
  split
  · exact congrArg ([·]) (hliteral (Excerpt.RestOf.refl d.value).partOf)
  · rw [htokens, List.filter_map, List.map_map, List.map_map]
    refine List.map_congr_left fun token htoken => ?_
    exact hliteral (Excerpt.firmIn_of_mem_tokens (List.mem_filter.mp htoken).1).partOf

theorem literals_move (checked : List String) :
    (d.move m).literals lines' checked = (d.literals lines checked).map (.move m) := by
  have hdefinition : (d.move m).isDefinition = d.isDefinition := rfl
  have hproperty : (d.move m).property.text = d.property.text := rfl
  rw [literals, literals, hdefinition, hproperty, fallbackLiterals_move hcarries h,
    valueLiterals_move hcarries h]
  split
  · rfl
  · rw [List.map_append]
    split
    · rfl
    · rfl

end Declaration

/-! ## What is read -/

theorem declaration?_move {segment : Excerpt} (h : segment.stop ≤ limit) :
    Sheet.declaration? lines' (segment.shift m.bytes) =
      (Sheet.declaration? lines segment).map (.move m) := by
  rw [Sheet.declaration?, Sheet.declaration?, Excerpt.trim_shift, Excerpt.isEmpty_shift]
  split
  · rfl
  · rw [Declaration.read, Declaration.read, readProperty?_shift]
    cases hproperty : readProperty? segment with
    | none => rfl
    | some read =>
      obtain ⟨property, rest⟩ := read
      obtain ⟨hpart, hrest, _⟩ := readProperty?_spec hproperty
      have hvalue := rest.firmIn_withoutImportant.partOf.trans hrest.partOf
      have hrange : lines'.range (m.bytes + property.start)
          (m.bytes + rest.trim.withoutImportant.1.stop) =
            (lines.range property.start rest.trim.withoutImportant.1.stop).move m := by
        refine hcarries.range ?_ (Nat.le_trans hvalue.stop_le h)
        exact Nat.le_trans (Nat.le_add_right _ _) (Nat.le_trans hpart.stop_le h)
      simp only [Option.map_some, Prod.map_apply, Excerpt.trim_shift,
        Excerpt.withoutImportant_shift, Excerpt.isEmpty_shift, Excerpt.chars_shift,
        Excerpt.start_shift, Excerpt.stop_shift, hrange]
      split
      · rfl
      · rfl

theorem readsOf_move {body : Excerpt} (h : body.stop ≤ limit) :
    readsOf (readBody lines' (body.shift m.bytes)) =
      (readsOf (readBody lines body)).map (.move m) := by
  have hsegments : (body.shift m.bytes).pieces.flatMap (·.segments) =
      (body.pieces.flatMap (·.segments)).map (.shift m.bytes) := by
    rw [Excerpt.pieces_shift, List.flatMap_map, List.map_flatMap]
    simp only [Excerpt.segments_shift]
  rw [Sheet.readsOf_readBody, Sheet.readsOf_readBody, hsegments, List.filterMap_map,
    List.map_filterMap]
  refine List.filterMap_congr fun segment hsegment => ?_
  have hpart : segment.PartOf body := body.inOrder_bodySegments.partOf hsegment
  exact declaration?_move hcarries (Nat.le_trans hpart.stop_le h)

theorem rule?_move {chunk : Chunk} {e : Excerpt} (hstands : chunk.StandsIn e)
    (h : e.stop ≤ limit) :
    (chunk.shift m.bytes).rule? lines' = (chunk.rule? lines).map (.move m) := by
  cases chunk with
  | statement text | group | close offset | tail text => rfl
  | rule selector brace body closed =>
    have hselector := Nat.le_trans hstands.firm_selector.partOf.stop_le h
    have hbody := Nat.le_trans hstands.partOf_body.stop_le h
    simp only [Chunk.shift, Chunk.rule?, Option.map_some, Rule.move, hcarries.rangeOf hselector,
      readsOf_move hcarries hbody, Excerpt.start_shift, Excerpt.stop_shift, Span.move]
    cases closed <;> rfl

end Carried

namespace Sheet

/-! ## Sheets behind and before others -/

theorem stop_blanked (cs : List Char) : (blanked cs).stop = byteSize cs := by
  rw [blanked, Excerpt.stop, Nat.zero_add, Comment.byteSize_blank]

/-- The rules that the chunks of a sheet give where the sheet is part of a longer one. -/
theorem rules_between (before cs after : List Char) :
    ((blanked cs).chunks.map (Chunk.shift (byteSize before))).filterMap
        (Chunk.rule? (.ofChars 0 (before ++ cs ++ after))) =
      (ofChars cs).rules.map (Rule.move (.behind before)) := by
  have hrules : (ofChars cs).rules = (blanked cs).chunks.filterMap (·.rule? (.ofChars 0 cs)) := rfl
  rw [hrules, List.filterMap_map, List.map_filterMap]
  refine List.filterMap_congr fun chunk hchunk => ?_
  exact rule?_move (carries_behind before cs after) (Excerpt.standsIn_chunks _ chunk hchunk)
    (Nat.le_of_eq (stop_blanked cs))

/-- What the declarations of a sheet hold is the same where the sheet is part of a longer one. -/
theorem flatMap_between {α : Type} {move : α → α} {find : LineTable → Declaration → List α}
    (before cs after : List Char)
    (hfind : ∀ d : Declaration, d.value.stop ≤ byteSize cs →
      find (.ofChars 0 (before ++ cs ++ after)) (d.move (.behind before)) =
        (find (.ofChars 0 cs) d).map move) :
    ((ofChars cs).declarations.map (.move (.behind before))).flatMap
        (find (.ofChars 0 (before ++ cs ++ after))) =
      ((ofChars cs).declarations.flatMap (find (.ofChars 0 cs))).map move := by
  rw [List.flatMap_map, List.map_flatMap]
  refine List.flatMap_congr fun d hd => hfind d ?_
  rw [← stop_blanked cs]
  exact (standsIn_of_mem_declarations hd).value.partOf.stop_le

section Append

variable {cs : List Char} (h : ∀ p ∈ (ofChars cs).problems, p.cause.isOpenEnd = false)
  (after : List Char)

include h

theorem rules_append :
    (ofChars (cs ++ after)).rules =
      (ofChars cs).rules ++ (ofChars after).rules.map (.move (.behind cs)) := by
  obtain ⟨init, tail, hchunks, happend⟩ := chunks_append h after
  have hfirst : init.filterMap (Chunk.rule? (.ofChars 0 (cs ++ after))) = (ofChars cs).rules := by
    have hbetween := rules_between [] cs after
    have hshift : Chunk.shift (byteSize []) = id := funext Chunk.shift_zero
    have hmove : Rule.move (.behind []) = id := funext Rule.move_behind_nil
    rw [hshift, hmove, List.map_id, List.map_id, hchunks, List.filterMap_append] at hbetween
    exact (List.append_nil _).symm.trans hbetween
  have hsecond := rules_between cs after []
  rw [List.append_nil] at hsecond
  calc (ofChars (cs ++ after)).rules
      = (blanked (cs ++ after)).chunks.filterMap (Chunk.rule? (.ofChars 0 (cs ++ after))) := rfl
    _ = _ := by rw [happend, List.filterMap_append, hfirst, hsecond]

theorem declarations_append :
    (ofChars (cs ++ after)).declarations =
      (ofChars cs).declarations ++ (ofChars after).declarations.map (.move (.behind cs)) := by
  rw [declarations, rules_append h, List.flatMap_append, List.flatMap_map, declarations,
    declarations, List.map_flatMap]
  rfl

/-- What the declarations of two sheets hold, found by a search that follows them when they are
moved. -/
theorem flatMap_append {α : Type} {move : Displacement → α → α}
    {find : LineTable → Declaration → List α} (hnil : move (.behind []) = id)
    (hfind : ∀ {m : Displacement} {lines lines' : LineTable} {limit : Nat},
      m.Carries lines limit lines' → ∀ {d : Declaration}, d.value.stop ≤ limit →
        find lines' (d.move m) = (find lines d).map (move m)) :
    (ofChars (cs ++ after)).declarations.flatMap (find (.ofChars 0 (cs ++ after))) =
      (ofChars cs).declarations.flatMap (find (.ofChars 0 cs)) ++
        ((ofChars after).declarations.flatMap (find (.ofChars 0 after))).map
          (move (.behind cs)) := by
  have hfirst := flatMap_between [] cs after fun d hd => hfind (carries_behind [] cs after) hd
  have hsecond := flatMap_between cs after [] fun d hd => hfind (carries_behind cs after []) hd
  have hid : Declaration.move (.behind []) = id := funext Declaration.move_behind_nil
  rw [hid, hnil, List.map_id, List.map_id] at hfirst
  rw [List.append_nil] at hsecond
  rw [declarations_append h, List.flatMap_append, ← hsecond, ← hfirst]
  rfl

end Append

/-- Reading is local. When the sheet of `a` leaves nothing open at its end, the sheet of `a` and `b`
together has the rules, definitions, usages and literals of `a`, and after them those of `b`. The
offsets of the latter are raised by the size of `a`, and their positions counted from its end. -/
theorem contents_append {a : String} (h : ∀ p ∈ (ofString a).problems, p.cause.isOpenEnd = false)
    (b : String) (checked : List String) :
    let whole := ofString (a ++ b)
    let m := Displacement.behind a.toList
    m.bytes = a.utf8ByteSize ∧
      whole.rules = (ofString a).rules ++ (ofString b).rules.map (.move m) ∧
      whole.definitions = (ofString a).definitions ++ (ofString b).definitions.map (.move m) ∧
      whole.usages = (ofString a).usages ++ (ofString b).usages.map (.move m) ∧
      whole.literals checked =
        (ofString a).literals checked ++ ((ofString b).literals checked).map (.move m) := by
  intro whole m
  have hwhole : whole = ofChars (a.toList ++ b.toList) := by
    rw [← String.toList_append]
    rfl
  rw [hwhole]
  refine ⟨byteSize_toList a, rules_append h b.toList, ?_, ?_, ?_⟩
  · rw [definitions, declarations_append h, List.filter_append, List.filter_map]
    rfl
  · exact flatMap_append h b.toList (funext Usage.move_behind_nil) fun hcarries _ hd =>
      Declaration.usages_move hcarries hd
  · exact flatMap_append h b.toList (funext LiteralUse.move_behind_nil) fun hcarries _ hd =>
      Declaration.literals_move hcarries hd checked

/-- The first text ends with a closing brace too many and a comment, and the second one starts with
what could end a comment. -/
theorem contents_append_across_comments :
    let a := ".a \x7b --x: 1px \x7d \x7d\n/* é */"
    let b := "*/ .b \x7b color: var(--x, red); margin: 2px \x7d"
    let m := Displacement.behind a.toList
    (∀ p ∈ (ofString a).problems, p.cause.isOpenEnd = false) ∧
      ((ofString a).problems.length = 1 ∧ m.bytes = 26 ∧ m.base = ⟨1, 7⟩) ∧
      (ofString (a ++ b)).rules = (ofString a).rules ++ (ofString b).rules.map (.move m) ∧
      (ofString (a ++ b)).usages = (ofString a).usages ++ (ofString b).usages.map (.move m) ∧
      (ofString (a ++ b)).literals ["margin"] =
        (ofString a).literals ["margin"] ++ ((ofString b).literals ["margin"]).map (.move m) := by
  intro a b m
  have hcomplete : ∀ p ∈ (ofString a).problems, p.cause.isOpenEnd = false := by decide +kernel
  obtain ⟨_, hrules, _, husages, hliterals⟩ := contents_append hcomplete b ["margin"]
  exact ⟨hcomplete, by decide +kernel, hrules, husages, hliterals⟩

end Sheet

end StyleVars
