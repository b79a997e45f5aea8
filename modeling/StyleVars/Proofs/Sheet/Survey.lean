import StyleVars.Catalog.Basic
import StyleVars.Proofs.Sheet.Order
import StyleVars.Sheet.Survey

/-!
# What a survey depends on

Each step of a survey appends to its lists, and what it appends does not depend on what has been
collected before. So a survey holds what can be read off the sheet after the fact. The properties
that are checked enter at one place only: they select among the literals of values by property. With
more properties checked, more of these literals are selected, from the same list and in the same
order, and nothing else in the survey changes.
-/

namespace StyleVars

/-- What can be read off a sheet, given the properties that are checked in lower case. -/
def Sheet.survey (sheet : Sheet) (checked : List String) : Survey where
  rules := sheet.rules
  definitions := sheet.definitions
  usages := sheet.usages
  literals := sheet.literals checked
  duplicateClasses := sheet.duplicateClasses
  problems := sheet.problems

namespace Survey

variable (lines : LineTable) (checked : List String)

/-! ## Steps -/

/-- The survey with rules, with what declarations hold and with problems added. -/
def extend (s : Survey) (rules : List Rule) (ds : List Declaration) (ps : List Problem) : Survey :=
  { s with
    rules := s.rules ++ rules
    definitions := s.definitions ++ ds.filter (·.isDefinition)
    usages := s.usages ++ ds.flatMap (·.usages lines)
    literals := s.literals ++ ds.flatMap (·.literals lines checked)
    problems := s.problems ++ ps }

theorem extend_nil (s : Survey) : s.extend lines checked [] [] [] = s := by
  simp [extend]

theorem extend_extend (s : Survey) (rules rules' : List Rule) (ds ds' : List Declaration)
    (ps ps' : List Problem) :
    (s.extend lines checked rules ds ps).extend lines checked rules' ds' ps' =
      s.extend lines checked (rules ++ rules') (ds ++ ds') (ps ++ ps') := by
  simp [extend]

theorem addProblem_eq (s : Survey) (p : Problem) :
    s.addProblem p = s.extend lines checked [] [] [p] := by
  simp [addProblem, extend]

theorem addProblem_unless (s : Survey) (p : Problem) (fine : Bool) :
    (if fine then s else s.addProblem p) =
      s.extend lines checked [] [] (if fine then [] else [p]) := by
  cases fine with
  | true => exact (extend_nil lines checked s).symm
  | false => exact addProblem_eq lines checked s p

theorem foldl_addReference (d : Declaration) (rs : List Reference) (s : Survey) :
    rs.foldl (addReference lines d) s =
      { s with
        usages := s.usages ++ rs.map fun r => ⟨r, d.property.text, lines.rangeOf r.source⟩
        literals := s.literals ++ (rs.filterMap (·.fallback)).filterMap fun f =>
          if isLiteral f.chars then some ⟨d.property.text, f, true, lines.rangeOf f⟩
          else none } := by
  induction rs generalizing s with
  | nil => simp
  | cons r rs ih =>
    rw [List.foldl_cons, ih, addReference]
    cases hfallback : r.fallback with
    | none => simp [hfallback]
    | some f => cases hliteral : isLiteral f.chars <;> simp [hfallback, hliteral, addLiteral]

theorem foldl_addLiteral (d : Declaration) (ts : List Excerpt) (s : Survey) :
    ts.foldl (fun s t => if isLiteral t.chars then s.addLiteral lines d false t else s) s =
      { s with
        literals := s.literals ++ (ts.filter fun t => isLiteral t.chars).map fun t =>
          ⟨d.property.text, t, false, lines.rangeOf t⟩ } := by
  induction ts generalizing s with
  | nil => simp
  | cons t ts ih =>
    rw [List.foldl_cons, ih]
    cases hliteral : isLiteral t.chars <;> simp [hliteral, addLiteral]

theorem addValue_eq (d : Declaration) (s : Survey) :
    s.addValue lines d = { s with literals := s.literals ++ d.valueLiterals lines } := by
  rw [addValue, Declaration.valueLiterals]
  split
  · rfl
  · exact foldl_addLiteral lines d d.value.tokens s

theorem addDeclaration_eq (s : Survey) (d : Declaration) :
    s.addDeclaration lines checked d = s.extend lines checked [] [d] [] := by
  cases hdefinition : d.isDefinition with
  | true => simp [addDeclaration, extend, Declaration.usages, Declaration.literals, hdefinition]
  | false =>
    simp only [addDeclaration, foldl_addReference, addValue_eq, hdefinition]
    by_cases hchecked : lowercase d.property.text ∈ checked <;>
      simp [extend, Declaration.usages, Declaration.literals, Declaration.fallbackLiterals,
        hdefinition, hchecked]

/-- A body adds what its declarations hold and the problems of its segments. -/
theorem foldl_readSegment (segments : List Excerpt) (s : Survey) (ds : List Declaration) :
    segments.foldl (readSegment lines checked) (s, ds) =
      let results := (segments.filter (!·.isPassedOver)).map (Declaration.read lines)
      (s.extend lines checked [] (readsOf results) (problemsOf results),
        ds ++ readsOf results) := by
  induction segments generalizing s ds with
  | nil => simp [readsOf, problemsOf, extend_nil]
  | cons segment segments ih =>
    rw [List.foldl_cons, readSegment]
    cases hpassed : segment.isPassedOver with
    | true =>
      rw [if_pos rfl, ih, List.filter_cons_of_neg (by simp [hpassed])]
    | false =>
      rw [if_neg Bool.false_ne_true, List.filter_cons_of_pos (by simp [hpassed]), List.map_cons]
      cases Declaration.read lines segment with
      | ok d =>
        simp only [ih, addDeclaration_eq, extend_extend]
        simp [readsOf, problemsOf]
      | error p =>
        simp only [ih, addProblem_eq lines checked, extend_extend]
        simp [readsOf, problemsOf]

theorem addRule_eq (s : Survey) (selector : Excerpt) (brace : Nat) (body : Excerpt)
    (closed : Bool) :
    s.addRule lines checked selector brace body closed =
      s.extend lines checked ((Chunk.rule selector brace body closed).rule? lines).toList
        (readsOf (readBody lines body)) (Chunk.ruleProblems lines selector brace body closed) := by
  have hbody (s : Survey) :
      (body.pieces.flatMap (·.segments)).foldl (readSegment lines checked) (s, []) =
        (s.extend lines checked [] (readsOf (readBody lines body))
          (problemsOf (readBody lines body)), readsOf (readBody lines body)) :=
    foldl_readSegment lines checked _ s []
  rw [addRule, Chunk.ruleProblems]
  cases selector.isEmpty <;> cases closed <;> cases body.firstNested? <;>
    simp [hbody, addProblem, extend, Chunk.rule?]

/-- A chunk adds the rule that it is and the problems met in it. -/
theorem readChunk_eq (chunk : Chunk) (groups : Nat) (s : Survey) : ∃ after ps,
    readChunk lines checked (groups, s) chunk = (after,
      s.extend lines checked (chunk.rule? lines).toList
        ((chunk.rule? lines).toList.flatMap (·.declarations)) ps) ∧
    ∀ stop rest, Chunk.problems lines stop groups (chunk :: rest) =
      ps ++ Chunk.problems lines stop after rest := by
  cases chunk with
  | statement text =>
    refine ⟨groups, _, congrArg (groups, ·) (addProblem_unless lines checked s _ _), ?_⟩
    exact fun stop rest => by rw [Chunk.problems]
  | group =>
    refine ⟨groups + 1, [], congrArg (groups + 1, ·) (extend_nil lines checked s).symm, ?_⟩
    exact fun stop rest => by rw [Chunk.problems, List.nil_append]
  | close offset =>
    cases groups with
    | zero => exact ⟨0, _, congrArg (0, ·) (addProblem_eq lines checked s _), fun _ _ => rfl⟩
    | succ groups =>
      exact ⟨groups, [], congrArg (groups, ·) (extend_nil lines checked s).symm, fun _ _ => rfl⟩
  | rule selector brace body closed =>
    refine ⟨groups, Chunk.ruleProblems lines selector brace body closed, ?_, ?_⟩
    · rw [readChunk, addRule_eq]
      simp [Chunk.rule?]
    · exact fun stop rest => by rw [Chunk.problems]
  | tail text =>
    refine ⟨groups, _, congrArg (groups, ·) (addProblem_unless lines checked s _ _), ?_⟩
    exact fun stop rest => by rw [Chunk.problems]

/-! ## Runs -/

/-- The chunks of a text add the rules that they are and the problems met in them, with groups open
before them. -/
theorem finish_foldl_readChunk (stop : Nat) (chunks : List Chunk) (groups : Nat) (s : Survey) :
    finish lines stop (chunks.foldl (readChunk lines checked) (groups, s)) =
      s.extend lines checked (chunks.filterMap (·.rule? lines))
        ((chunks.filterMap (·.rule? lines)).flatMap (·.declarations))
        (Chunk.problems lines stop groups chunks) := by
  induction chunks generalizing groups s with
  | nil =>
    cases groups with
    | zero => exact (extend_nil lines checked s).symm
    | succ groups => exact addProblem_eq lines checked s _
  | cons chunk chunks ih =>
    obtain ⟨after, ps, hstep, hproblems⟩ := readChunk_eq lines checked chunk groups s
    rw [List.foldl_cons, hstep, ih, extend_extend, hproblems, ← List.flatMap_append]
    cases hrule : chunk.rule? lines <;> simp [hrule]

/-- A survey holds what can be read off the sheet. -/
theorem ofChars_eq_survey (cs : List Char) :
    ofChars checked cs = (Sheet.ofChars cs).survey checked := by
  simp only [ofChars, finish_foldl_readChunk]
  cases hcomment : Comment.unterminated? cs <;>
    simp only [Sheet.ofChars, hcomment] <;> rfl

end Survey

/-! ## Literals -/

theorem Excerpt.inOrder_tokens (e : Excerpt) : InOrder id e e.tokens := by
  refine InOrder.sublist ?_ List.filter_sublist
  exact (inOrder_splitTop dividesTokens e).map fun piece _ => (restOf_dropWhile _ piece).partOf

theorem Excerpt.start_lt_stop_of_isLiteral {e : Excerpt} (h : isLiteral e.chars) :
    e.start < e.stop := by
  cases hchars : e.chars with
  | nil =>
    -- Nothing at all is no literal.
    rw [hchars] at h
    cases h
  | cons c cs =>
    have hsize := c.utf8Size_pos
    rw [stop, hchars, byteSize_cons]
    omega

namespace Declaration

variable (lines : LineTable) (checked : List String) (d : Declaration)

/-- The literals that are found if the property is checked. -/
def checkable : List LiteralUse := if d.isDefinition then [] else d.valueLiterals lines

/-- The fallbacks are found in any case, and checking selects among the others by property. -/
theorem literals_eq : d.literals lines checked = d.literals lines [] ++
    (d.checkable lines).filter fun l => checked.contains (lowercase l.property) := by
  have hselect : (d.valueLiterals lines).filter (fun l => checked.contains (lowercase l.property)) =
      if checked.contains (lowercase d.property.text) then d.valueLiterals lines else [] := by
    have hproperty : ∀ l ∈ d.valueLiterals lines,
        checked.contains (lowercase l.property) = checked.contains (lowercase d.property.text) := by
      intro l hl
      obtain ⟨e, -, rfl⟩ := List.mem_map.mp hl
      rfl
    rw [List.filter_congr hproperty]
    cases checked.contains (lowercase d.property.text) <;> simp
  rw [literals, literals, checkable]
  split
  · rfl
  · rw [hselect]
    simp

variable {lines d} {l : LiteralUse}

theorem isFallback_of_mem_literals_nil (h : l ∈ d.literals lines []) : l.isFallback = true := by
  rw [literals] at h
  split at h
  · cases h
  · have hfallback : l ∈ d.fallbackLiterals lines := by simpa using h
    obtain ⟨f, -, hf⟩ := List.mem_filterMap.mp hfallback
    split at hf
    · cases hf
      rfl
    · cases hf

theorem of_mem_checkable (h : l ∈ d.checkable lines) :
    l.isFallback = false ∧ isLiteral l.value.chars = true := by
  rw [checkable] at h
  split at h
  · cases h
  · obtain ⟨e, he, rfl⟩ := List.mem_map.mp h
    refine ⟨rfl, ?_⟩
    split at he
    · rename_i hvalue
      rwa [List.mem_singleton.mp he]
    · exact (List.mem_filter.mp he).2

variable (lines d)

theorem filter_isFallback_literals :
    (d.literals lines checked).filter (·.isFallback) = d.literals lines [] := by
  have hkept : (d.literals lines []).filter (·.isFallback) = d.literals lines [] :=
    List.filter_eq_self.mpr fun l hl => isFallback_of_mem_literals_nil hl
  have hdropped : ((d.checkable lines).filter fun l =>
      checked.contains (lowercase l.property)).filter (·.isFallback) = [] := by
    refine List.filter_eq_nil_iff.mpr fun l hl => ?_
    simp [(of_mem_checkable (List.mem_filter.mp hl).1).1]
  rw [literals_eq, List.filter_append, hkept, hdropped, List.append_nil]

theorem filter_not_isFallback_literals :
    (d.literals lines checked).filter (!·.isFallback) =
      (d.checkable lines).filter fun l => checked.contains (lowercase l.property) := by
  have hdropped : (d.literals lines []).filter (!·.isFallback) = [] := by
    refine List.filter_eq_nil_iff.mpr fun l hl => ?_
    simp [isFallback_of_mem_literals_nil hl]
  rw [literals_eq, List.filter_append, hdropped, List.nil_append]
  refine List.filter_eq_self.mpr fun l hl => ?_
  simp [(of_mem_checkable (List.mem_filter.mp hl).1).1]

theorem inOrder_checkable : InOrder LiteralUse.value d.value (d.checkable lines) := by
  rw [checkable, valueLiterals]
  split
  · exact .nil
  · split
    · exact .singleton (Excerpt.RestOf.refl d.value).partOf
    · refine (d.value.inOrder_tokens.sublist List.filter_sublist).map fun token _ => ?_
      exact (Excerpt.RestOf.refl token).partOf

end Declaration

namespace Sheet

/-- The literals that are found if all properties are checked. -/
def checkable (sheet : Sheet) : List LiteralUse :=
  sheet.declarations.flatMap (·.checkable sheet.lines)

theorem filter_isFallback_literals (sheet : Sheet) (checked : List String) :
    (sheet.literals checked).filter (·.isFallback) = sheet.literals [] := by
  simp only [literals, List.filter_flatMap, Declaration.filter_isFallback_literals]

theorem filter_not_isFallback_literals (sheet : Sheet) (checked : List String) :
    (sheet.literals checked).filter (!·.isFallback) =
      sheet.checkable.filter fun l => checked.contains (lowercase l.property) := by
  simp only [literals, checkable, List.filter_flatMap,
    Declaration.filter_not_isFallback_literals]

theorem start_lt_stop_of_mem_checkable {sheet : Sheet} {l : LiteralUse} (h : l ∈ sheet.checkable) :
    l.value.start < l.value.stop := by
  obtain ⟨d, _, hd⟩ := List.mem_flatMap.mp h
  exact Excerpt.start_lt_stop_of_isLiteral (Declaration.of_mem_checkable hd).2

/-- The literals of values start one after the other in the text. -/
theorem pairwise_checkable (cs : List Char) :
    (ofChars cs).checkable.Pairwise (·.value.start < ·.value.start) := by
  have horder : InOrder LiteralUse.value (blanked cs) (ofChars cs).checkable :=
    (inOrder_declarations cs).flatMap fun d _ => d.inOrder_checkable _
  refine horder.ordered.imp_of_mem fun {l l'} hl _ hle => ?_
  exact Nat.lt_of_lt_of_le (start_lt_stop_of_mem_checkable hl) hle

end Sheet

/-! ## The properties that are checked -/

namespace Survey

/-- The literals among the fallbacks. -/
def fallbacks (s : Survey) : List LiteralUse := s.literals.filter (·.isFallback)

/-- The literals among the values and their tokens. -/
def values (s : Survey) : List LiteralUse := s.literals.filter (!·.isFallback)

theorem fallbacks_ofString (checked : List String) (text : String) :
    (ofString checked text).fallbacks = (Sheet.ofString text).literals [] := by
  rw [ofString, ofChars_eq_survey]
  exact Sheet.filter_isFallback_literals _ checked

theorem values_ofString (checked : List String) (text : String) :
    (ofString checked text).values =
      (Sheet.ofString text).checkable.filter fun l => checked.contains (lowercase l.property) := by
  rw [ofString, ofChars_eq_survey]
  exact Sheet.filter_not_isFallback_literals _ checked

/-- Two surveys of a text agree in everything but the literals of values, whatever is checked. With
the properties of both checked, the survey has the literals of values that either has, once each and
in the order of the text, and each of the two has those of its own properties. A file contributes
the definitions and usages that a survey of its text has, and the sheet that is checked against the
settings shows what the survey has, whatever is checked. -/
theorem checked_properties_select_values (text : String) (first second : List String) :
    let a := ofString first text
    let b := ofString second text
    let both := ofString (first ++ second) text
    (a.rules = b.rules ∧ a.definitions = b.definitions ∧ a.usages = b.usages ∧
      a.duplicateClasses = b.duplicateClasses ∧ a.problems = b.problems ∧
      a.fallbacks = b.fallbacks) ∧
    ((∀ l, l ∈ both.values ↔ l ∈ a.values ∨ l ∈ b.values) ∧
      both.values.Pairwise (·.value.start < ·.value.start) ∧
      a.values = both.values.filter (fun l => first.contains (lowercase l.property)) ∧
      b.values = both.values.filter (fun l => second.contains (lowercase l.property))) ∧
    (Sheet.ofString text).survey first = a ∧
    ∀ path, FileRecord.ofText path text =
      { defined := a.definitions.map fun d => ⟨d.property.text, d.value.text, path, d.range⟩
        usage := .ofNames (a.usages.map (·.reference.name)) } := by
  intro a b both
  have ha : a = (Sheet.ofString text).survey first := ofChars_eq_survey first _
  have hb : b = (Sheet.ofString text).survey second := ofChars_eq_survey second _
  have hselect (checked : List String) (hsub : checked ⊆ first ++ second) :
      (ofString checked text).values =
        both.values.filter fun l => checked.contains (lowercase l.property) := by
    rw [values_ofString, values_ofString, List.filter_filter]
    refine List.filter_congr fun l _ => ?_
    rw [Bool.eq_iff_iff, Bool.and_eq_true, List.contains_iff_mem, List.contains_iff_mem]
    exact ⟨fun h => ⟨h, hsub h⟩, And.left⟩
  refine ⟨?_, ⟨fun l => ?_, ?_, ?_, ?_⟩, ha.symm, fun path => ?_⟩
  · have hfallbacks : a.fallbacks = b.fallbacks :=
      (fallbacks_ofString first text).trans (fallbacks_ofString second text).symm
    refine ⟨?_, ?_, ?_, ?_, ?_, hfallbacks⟩ <;> rw [ha, hb] <;> rfl
  · rw [values_ofString, values_ofString, values_ofString]
    simp only [List.mem_filter, List.contains_iff_mem, List.mem_append, and_or_left]
  · rw [values_ofString]
    exact (Sheet.pairwise_checkable text.toList).sublist List.filter_sublist
  · exact hselect first (List.subset_append_left first second)
  · exact hselect second (List.subset_append_right first second)
  · rw [ha]
    rfl

example :
    let s := ofString ["color"] ".a\x7bCOLOR: red; width: 1px; top: var(--x, 2px)\x7d"
    s.values.map (·.property) = ["COLOR"] ∧ s.fallbacks.map (·.value.text) = ["2px"] := by
  decide +kernel

end Survey

end StyleVars
