import StyleVars.Proofs.Value.Nested

/-!
# No literal is reported twice

A declaration reports the literals among the fallbacks of its references, and then its value or the
tokens of its value. Both lists are in the order of the text. A literal of the second list is the
whole value, which then holds no reference, or it is a token, which then overlaps no reference
unless a quote hides a parenthesis from the tokens. So without quotes the reports of a sheet are
apart from each other.
-/

namespace StyleVars

theorem Excerpt.references_eq_nil_of_isLiteral {e : Excerpt} (h : isLiteral e.chars) :
    e.references = [] := by
  apply List.eq_nil_iff_forall_not_mem.mpr
  intro r hr
  rw [isLiteral_eq_false_of_partOf hr ((inOrder_references e).partOf hr)] at h
  cases h

namespace Declaration

variable {lines : LineTable} {checked : List String} {d : Declaration} {l l' : LiteralUse}

/-! ## One declaration -/

theorem exists_reference_of_mem_literals_nil (h : l ∈ d.literals lines []) :
    isLiteral l.value.chars ∧ ∃ r ∈ d.value.references, r.fallback = some l.value := by
  rw [literals] at h
  split at h
  · cases h
  · have hfallback : l ∈ d.fallbackLiterals lines := by simpa using h
    obtain ⟨f, hf, hl⟩ := List.mem_filterMap.mp hfallback
    split at hl
    · rename_i hliteral
      cases hl
      exact ⟨hliteral, List.mem_filterMap.mp hf⟩
    · cases hl

theorem mem_tokens_of_mem_checkable (h : l ∈ d.checkable lines) :
    l.value = d.value ∨ l.value ∈ d.value.tokens := by
  rw [checkable] at h
  split at h
  · cases h
  · obtain ⟨e, he, rfl⟩ := List.mem_map.mp h
    split at he
    · exact .inl (List.mem_singleton.mp he)
    · exact .inr (List.mem_filter.mp he).1

/-- A report is a literal among the fallbacks, or one that is found because of the property. -/
theorem mem_literals_cases (h : l ∈ d.literals lines checked) :
    l.isFallback = true ∧ l ∈ d.literals lines [] ∨
      l.isFallback = false ∧ l ∈ d.checkable lines := by
  rw [literals_eq, List.mem_append, List.mem_filter] at h
  rcases h with hfallback | ⟨hvalue, -⟩
  · exact .inl ⟨isFallback_of_mem_literals_nil hfallback, hfallback⟩
  · exact .inr ⟨(of_mem_checkable hvalue).1, hvalue⟩

theorem isLiteral_of_mem_literals (h : l ∈ d.literals lines checked) :
    isLiteral l.value.chars := by
  rcases mem_literals_cases h with ⟨-, hfallback⟩ | ⟨-, hvalue⟩
  · exact (exists_reference_of_mem_literals_nil hfallback).1
  · exact (of_mem_checkable hvalue).2

theorem start_lt_stop_of_mem_literals (h : l ∈ d.literals lines checked) :
    l.value.start < l.value.stop :=
  Excerpt.start_lt_stop_of_isLiteral (isLiteral_of_mem_literals h)

theorem inOrder_literals_nil (lines : LineTable) (d : Declaration) :
    InOrder LiteralUse.value d.value (d.literals lines []) := by
  have hfallbacks : InOrder id d.value (d.value.references.filterMap (·.fallback)) :=
    (inOrder_references d.value).filterMap fun r hr f hf =>
      Reference.partOf_fallback_of_mem_references hr hf
  rw [literals]
  split
  · exact .nil
  · simp only [List.contains_nil, Bool.false_eq_true, if_false, List.append_nil]
    refine hfallbacks.filterMap fun f _ l hl => ?_
    split at hl
    · cases hl
      exact (Excerpt.RestOf.refl f).partOf
    · cases hl

theorem partOf_of_mem_literals (h : l ∈ d.literals lines checked) : l.value.PartOf d.value := by
  rcases mem_literals_cases h with ⟨-, hfallback⟩ | ⟨-, hvalue⟩
  · exact (inOrder_literals_nil lines d).partOf hfallback
  · exact (inOrder_checkable lines d).partOf hvalue

theorem apart_reference_of_mem_checkable (hd : Unquoted d.value.chars)
    (h : l ∈ d.checkable lines) {r : Reference} (hr : r ∈ d.value.references) :
    l.value.span.Apart r.source.span := by
  have hliteral := (of_mem_checkable h).2
  rcases mem_tokens_of_mem_checkable h with hwhole | htoken
  · rw [hwhole] at hliteral
    rw [Excerpt.references_eq_nil_of_isLiteral hliteral] at hr
    cases hr
  · exact Excerpt.apart_of_isLiteral hr hd htoken hliteral

/-- In a value without quotes the reports are apart. -/
theorem pairwise_literals (hd : Unquoted d.value.chars) :
    (d.literals lines checked).Pairwise fun l l' => l.value.span.Apart l'.value.span := by
  rw [literals_eq]
  refine List.pairwise_append.mpr ⟨?_, ?_, ?_⟩
  · exact (inOrder_literals_nil lines d).ordered.imp Or.inl
  · exact ((inOrder_checkable lines d).ordered.imp Or.inl).sublist List.filter_sublist
  · intro l hl l' hl'
    obtain ⟨-, r, hr, hfallback⟩ := exists_reference_of_mem_literals_nil hl
    have hapart := apart_reference_of_mem_checkable hd (List.mem_filter.mp hl').1 hr
    exact hapart.symm.of_partOf (Reference.partOf_fallback_of_mem_references hr hfallback)
      (Excerpt.RestOf.refl l'.value).partOf

/-- A value that is reported as a whole is the only report of its declaration, with quotes or
without. -/
theorem literals_eq_singleton (h : l ∈ d.literals lines checked) (hwhole : l.value = d.value) :
    d.literals lines checked = [l] := by
  have hliteral := isLiteral_of_mem_literals h
  rw [hwhole] at hliteral
  have hfallbacks : d.fallbackLiterals lines = [] := by
    rw [fallbackLiterals, Excerpt.references_eq_nil_of_isLiteral hliteral]
    rfl
  have hvalues : d.valueLiterals lines =
      [⟨d.property.text, d.value, false, lines.rangeOf d.value⟩] := by
    simp [valueLiterals, hliteral]
  have hcases : d.literals lines checked = [] ∨ d.literals lines checked =
      [⟨d.property.text, d.value, false, lines.rangeOf d.value⟩] := by
    rw [literals, hfallbacks, hvalues, List.nil_append]
    split
    · exact .inl rfl
    · split
      · exact .inr rfl
      · exact .inl rfl
  rcases hcases with hnone | hone
  · rw [hnone] at h
    cases h
  · rw [hone] at h ⊢
    rw [List.mem_singleton.mp h]

end Declaration

/-! ## A sheet -/

namespace Sheet

/-- The declarations whose values hold no quote. -/
def plain (sheet : Sheet) : List Declaration :=
  sheet.declarations.filter fun d => Unquoted d.value.chars

theorem mem_plain {sheet : Sheet} {d : Declaration} :
    d ∈ sheet.plain ↔ d ∈ sheet.declarations ∧ Unquoted d.value.chars := by
  simp [plain]

theorem pairwise_plain_literals (lines : LineTable) (checked : List String) (cs : List Char) :
    ((ofChars cs).plain.flatMap (·.literals lines checked)).Pairwise
      fun l l' => l.value.span.Apart l'.value.span := by
  have horder : InOrder Declaration.value (blanked cs) (ofChars cs).plain :=
    (inOrder_declarations cs).sublist List.filter_sublist
  refine List.pairwise_flatMap.mpr ⟨fun d hd => ?_, ?_⟩
  · exact Declaration.pairwise_literals (mem_plain.mp hd).2
  · refine horder.ordered.imp fun {d d'} hle l hl l' hl' => ?_
    have hapart : d.value.span.Apart d'.value.span := .inl hle
    exact hapart.of_partOf (Declaration.partOf_of_mem_literals hl)
      (Declaration.partOf_of_mem_literals hl')

/-- A literal that is no fallback overlaps no reference, in its own value or in another. -/
theorem apart_reference {cs : List Char} {lines : LineTable} {d d' : Declaration} {l : LiteralUse}
    {r : Reference} (hd : d ∈ (ofChars cs).plain) (hl : l ∈ d.checkable lines)
    (hd' : d' ∈ (ofChars cs).declarations) (hr : r ∈ d'.value.references) :
    l.value.span.Apart r.source.span := by
  obtain ⟨hmem, hunquoted⟩ := mem_plain.mp hd
  rcases (inOrder_declarations cs).eq_or_apart hmem hd' with rfl | hapart
  · exact Declaration.apart_reference_of_mem_checkable hunquoted hl hr
  · exact hapart.of_partOf ((Declaration.inOrder_checkable lines d).partOf hl)
      ((inOrder_references d'.value).partOf hr)

end Sheet

/-- The reports of a survey are those of the declarations. Where the values hold no quote, the
reports are apart: no fallback is reported as a value too, and no value or token that is reported
overlaps a reference. A value that is reported as a whole is the only report of its declaration, and
no report is empty. -/
theorem Survey.literals_are_reported_once (checked : List String) (text : String) :
    (ofString checked text).literals = (Sheet.ofString text).declarations.flatMap
      (·.literals (Sheet.ofString text).lines checked) ∧
    let sheet := Sheet.ofString text
    let reports (d : Declaration) := d.literals sheet.lines checked
    (sheet.plain.flatMap reports).Pairwise (fun l l' => l.value.span.Apart l'.value.span) ∧
    (∀ l ∈ sheet.plain.flatMap reports, ∀ l' ∈ sheet.plain.flatMap reports,
      l.isFallback = true → l'.isFallback = false → l.value.span ≠ l'.value.span) ∧
    (∀ d ∈ sheet.plain, ∀ l ∈ reports d, l.isFallback = false →
      ∀ d' ∈ sheet.declarations, ∀ r ∈ d'.value.references, l.value.span.Apart r.source.span) ∧
    ∀ d ∈ sheet.declarations, ∀ l ∈ reports d,
      l.value.start < l.value.stop ∧ (l.value = d.value → reports d = [l]) := by
  refine ⟨?_, ?_⟩
  · rw [ofString, ofChars_eq_survey]
    rfl
  intro sheet reports
  have hpairwise : (sheet.plain.flatMap reports).Pairwise
      (fun l l' => l.value.span.Apart l'.value.span) :=
    Sheet.pairwise_plain_literals sheet.lines checked text.toList
  refine ⟨hpairwise, ?_, ?_, ?_⟩
  · intro l hl l' hl' hfallback hvalue
    have hne : l ≠ l' := by
      rintro rfl
      rw [hfallback] at hvalue
      cases hvalue
    obtain ⟨d, -, hd⟩ := List.mem_flatMap.mp hl
    exact (hpairwise.forall hl hl' hne).ne (Declaration.start_lt_stop_of_mem_literals hd)
  · intro d hd l hl hvalue d' hd' r hr
    rcases Declaration.mem_literals_cases hl with ⟨hfallback, -⟩ | ⟨-, hcheckable⟩
    · rw [hfallback] at hvalue
      cases hvalue
    · exact Sheet.apart_reference hd hcheckable hd' hr
  · intro d hd l hl
    exact ⟨Declaration.start_lt_stop_of_mem_literals hl, Declaration.literals_eq_singleton hl⟩

-- Parentheses without a partner, before a reference and in it.
example :
    let s := Survey.ofString ["top"] ".a\x7btop: )1px var(--x, 2px) var(--y, (3px) 4px\x7d"
    s.literals.map (fun l => (l.value.text, l.isFallback)) = [("2px", true), ("1px", false)] := by
  decide +kernel

-- A quote that hides the start of a reference lets a token in it be reported.
example :
    let s := Survey.ofString ["top"] ".a\x7btop: ' var(--x, ' 1px )\x7d"
    s.literals.map (fun l => (l.value.span, l.isFallback)) = [(⟨21, 24⟩, false)] ∧
      s.usages.map (·.reference.source.span) = [⟨10, 26⟩] := by
  decide +kernel

end StyleVars
