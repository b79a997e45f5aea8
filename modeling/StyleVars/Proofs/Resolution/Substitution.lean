import StyleVars.Proofs.Resolution.Composition

/-!
# Two ways to put a value in place of a reference

Resolving a variable looks for the plain text of its first reference, while putting values into a
text replaces each reference as it is written. For a value with one reference the two come to the
same if the reference is written plainly. One with blanks or a fallback stays in the value of the
variable, so there the two differ, unless what is put in happens to be the text of the reference.
-/

namespace StyleVars

namespace Excerpt

variable {e rest : Excerpt} {r : Reference} {before : List Char} (f : String → Option String)

theorem substitute_of_references_eq_nil (h : e.references = []) : e.substitute f = e.chars := by
  fun_induction references e with
  | case1 => cases h
  | case2 e hread hchars => rw [substitute_end f hread hchars, hchars]
  | case3 e hread c cs hchars _ ih => rw [substitute_char f hread hchars, ih h, hchars]

theorem Finds.substitute_eq (h : e.Finds before r rest) :
    e.substitute f =
      before ++ (((f r.name).map String.toList).getD r.source.chars ++ rest.substitute f) := by
  induction h with
  | here hread =>
    rw [substitute_reference f hread, List.nil_append]
    split <;> simp [*]
  | later hread hchars _ ih => rw [substitute_char f hread hchars, ih, List.cons_append]

end Excerpt

/-- What both ways come to, for a text with one reference: they agree if the reference is plain, or
if it holds no plain one and is what is put in. -/
theorem Excerpt.Finds.replaceFirst_eq_iff {e rest : Excerpt} {r : Reference} {before : List Char}
    (h : e.Finds before r rest) (hlast : rest.references = []) (inner : List Char) :
    replaceFirst (plainReference r.name) inner e.chars = before ++ (inner ++ rest.chars) ↔
      r.source.chars = plainReference r.name ∨
        ¬plainReference r.name <:+: r.source.chars ∧ inner = r.source.chars := by
  by_cases hoccurs : plainReference r.name <:+: r.source.chars
  · -- The plain text is the end of the reference, and nothing of the reference is before it.
    obtain ⟨inside, tail, hsource⟩ := hoccurs
    have hchars : e.chars =
        (before ++ inside) ++ (plainReference r.name ++ (tail ++ rest.chars)) := by
      rw [h.chars_eq, ← hsource]
      simp
    obtain ⟨inside', hinside, hend, hrest⟩ := h.plain_at_end hlast hchars
    obtain rfl : inside = inside' := List.append_cancel_left hinside
    have hfirst :
        FirstOccurrence (plainReference r.name) e.chars (before ++ inside) rest.chars := by
      refine ⟨hrest ▸ hchars, fun heq => ?_⟩
      obtain ⟨other, rfl, hother, -⟩ := h.plain_at_end hlast heq
      rw [List.append_cancel_right (hend.symm.trans hother)]
    have hheld : plainReference r.name <:+: inside ++ plainReference r.name :=
      (List.suffix_append _ _).isInfix
    rw [hfirst.replaceFirst_eq, hend]
    simp [hheld]
  · -- The plain text does not occur at all.
    have hnone : ¬plainReference r.name <:+: e.chars := by
      rintro ⟨skipped, after, heq⟩
      rw [List.append_assoc] at heq
      obtain ⟨inside, -, hend, -⟩ := h.plain_at_end hlast heq.symm
      exact hoccurs ⟨inside, [], by rw [hend, List.append_nil]⟩
    have hne : r.source.chars ≠ plainReference r.name := by
      intro heq
      exact hoccurs (heq ▸ List.infix_rfl)
    rw [replaceFirst_of_absent hnone, h.chars_eq, List.append_cancel_left_eq,
      List.append_cancel_right_eq]
    simp [hne, hoccurs, eq_comm]

namespace Catalog

variable {c : Catalog} {n : String} {info : VariableInfo} {r : Reference}

/-- Let a variable that resolves have one reference in its value. It resolves to what its value
becomes with the values of variables put into it if and only if there is no variable behind the
reference, or the reference is written without blanks and fallback, or else it holds no plain
reference to its own name and the name resolves to the very text of the reference. -/
theorem resolve_agrees_with_resolveValue_iff (hget : c.get? n = some info)
    (hone : (Excerpt.ofString info.entry.value).references = [r]) (hfound : (c.resolve n).Found) :
    (c.resolve n).value? = some (c.resolveValue info.entry.value) ↔
      c.get? r.name = none ∨ r.source.chars = plainReference r.name ∨
        ¬plainReference r.name <:+: r.source.chars ∧
          (c.resolve r.name).value? = some r.source.text := by
  have hfirst : info.first? = some r := by rw [VariableInfo.first?, hone, List.head?_cons]
  obtain ⟨before, rest, hfinds, hlast⟩ := Excerpt.exists_finds hone
  have hvalue : info.entry.value.toList = before ++ (r.source.chars ++ rest.chars) :=
    hfinds.chars_eq
  rw [resolveValue, hfinds.substitute_eq, Excerpt.substitute_of_references_eq_nil _ hlast]
  rcases resolve_of_reference hget hfirst hfound with ⟨inner, hinner, hresolve⟩ | ⟨hnone, hresolve⟩
  · have hdeclared : c.get? r.name ≠ none := by
      intro hnone
      rw [value?_of_get?_eq_none hnone] at hinner
      cases hinner
    have htext : inner = r.source.text ↔ inner.toList = r.source.chars := by
      rw [← String.toList_inj, Excerpt.text, String.toList_ofList]
    rw [hresolve, hinner]
    simp only [Resolution.value?, Option.map_some, Option.getD_some, Option.some.injEq,
      String.ofList_inj, hdeclared, false_or, htext]
    exact hfinds.replaceFirst_eq_iff hlast inner.toList
  · rw [hresolve, value?_of_get?_eq_none hnone, Option.map_none, Option.getD_none, ← hvalue,
      String.ofList_toList]
    simp [Resolution.value?, hnone]

/-- The value of `--m` comes to the text of the reference in `--n`, so the two ways agree although
that reference has a fallback. -/
theorem resolve_agrees_where_value_spells_reference :
    let path : Path := .ofString "/project/a.css"
    let c := Catalog.empty.insert path (.ofText path
      ":root \x7b --k: v; --m: var(--k)ar(--m, 3px); --n: var(--m, 3px) \x7d")
    (c.resolve "--n").value? = some (c.resolveValue "var(--m, 3px)") := by
  intro path c
  let info : VariableInfo := ⟨⟨"--n", "var(--m, 3px)", path, ⟨⟨0, 43⟩, ⟨0, 61⟩⟩⟩, 0, none⟩
  let r : Reference := ⟨"--m", some ⟨9, "3px".toList⟩, .ofString "var(--m, 3px)"⟩
  obtain ⟨hget, hvalue, hspelled⟩ : c.get? "--n" = some info ∧
      (c.resolve "--n").value?.isSome ∧ (c.resolve "--m").value? = some r.source.text := by
    decide +kernel
  have hone : (Excerpt.ofString info.entry.value).references = [r] := by decide +kernel
  have hfound : (c.resolve "--n").Found := (c.isSome_value?_resolve "--n").mp hvalue
  have hheld : ¬plainReference r.name <:+: r.source.chars := by decide +kernel
  exact (resolve_agrees_with_resolveValue_iff hget hone hfound).mpr (.inr (.inr ⟨hheld, hspelled⟩))

/-- A reference with a fallback stays in what the variable resolves to, but not in a text that
values are put into. -/
theorem resolve_keeps_reference_with_fallback :
    let path : Path := .ofString "/project/a.css"
    let c := Catalog.empty.insert path (.ofText path
      ":root \x7b --x: 1px; --y: var(--x, 3px) \x7d")
    (c.get? "--y").map (·.entry.value) = some "var(--x, 3px)" ∧
      (Excerpt.ofString "var(--x, 3px)").references.length = 1 ∧
      (c.resolve "--y").value? = some "var(--x, 3px)" ∧
      c.resolveValue "var(--x, 3px)" = "1px" := by
  decide +kernel

end Catalog

end StyleVars
