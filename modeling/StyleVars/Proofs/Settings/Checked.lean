import Mathlib
import StyleVars.Proofs.Sheet.Survey
import StyleVars.Settings.Basic

/-!
# Which properties are checked

The settings name properties in any case, and enable or disable each spelling on its own. There are
two ways to ask whether a property is checked. Declarations are selected by the set of the enabled
spellings in lower case, so that one enabled spelling is enough. The test for a single property
looks for its lowercase spelling only. A property that passes the test is always in the set, but a
property that is enabled under other spellings alone is in the set and does not pass the test.
-/

namespace StyleVars

open Std

theorem lowercase_lowercase (s : String) : lowercase (lowercase s) = lowercase s := by
  simp [lowercase, lowerAscii, Function.comp_def]

namespace Settings

/-- The settings enable the property under this very spelling. -/
def Enables (s : Settings) (spelling : String) : Prop := s.checkedProperties[spelling]? = some true

instance (s : Settings) (spelling : String) : Decidable (s.Enables spelling) :=
  inferInstanceAs (Decidable (_ = _))

variable {s : Settings} {property : String}

/-- The test for a single property looks at its lowercase spelling. -/
theorem isChecked_iff : s.isChecked property = true ↔ s.Enables (lowercase property) := by
  rw [isChecked, Enables]
  cases s.checkedProperties[lowercase property]? <;> simp

/-- A declaration is selected if its property is enabled under any spelling. -/
theorem lowercase_mem_checkedSet_iff :
    lowercase property ∈ s.checkedSet ↔
      ∃ spelling, s.Enables spelling ∧ lowercase spelling = lowercase property := by
  simp only [checkedSet, List.mem_map, List.mem_filter]
  constructor
  · rintro ⟨⟨spelling, enabled⟩, ⟨hmem, rfl⟩, hlower⟩
    exact ⟨spelling, TreeMap.mem_toList_iff_getElem?_eq_some.mp hmem, hlower⟩
  · rintro ⟨spelling, henables, hlower⟩
    exact ⟨(spelling, true), ⟨TreeMap.mem_toList_iff_getElem?_eq_some.mpr henables, rfl⟩, hlower⟩

theorem lowercase_mem_checkedSet_of_isChecked (h : s.isChecked property = true) :
    lowercase property ∈ s.checkedSet := by
  apply lowercase_mem_checkedSet_iff.mpr
  exact ⟨lowercase property, isChecked_iff.mp h, lowercase_lowercase property⟩

/-- The two tests agree on a property if it is enabled in lower case or not at all. -/
theorem isChecked_iff_mem_iff :
    (s.isChecked property = true ↔ lowercase property ∈ s.checkedSet) ↔
      ∀ spelling, s.Enables spelling → lowercase spelling = lowercase property →
        s.Enables (lowercase property) := by
  constructor
  · intro hagree spelling henables hlower
    apply isChecked_iff.mp
    apply hagree.mpr
    exact lowercase_mem_checkedSet_iff.mpr ⟨spelling, henables, hlower⟩
  · intro henabled
    refine ⟨lowercase_mem_checkedSet_of_isChecked, ?_⟩
    intro hmem
    obtain ⟨spelling, henables, hlower⟩ := lowercase_mem_checkedSet_iff.mp hmem
    exact isChecked_iff.mpr (henabled spelling henables hlower)

/-- Of the literals in the values of a text, those are reported whose property is in the set. -/
theorem mem_values_iff {text : String} {l : LiteralUse} (h : l ∈ (Sheet.ofString text).checkable) :
    l ∈ (Survey.ofString s.checkedSet text).values ↔ lowercase l.property ∈ s.checkedSet := by
  rw [Survey.values_ofString, List.mem_filter, List.contains_iff_mem]
  exact and_iff_right h

/-- Which settings check the same properties in both ways. Whatever the settings are, a property
that passes the test for a single property is in the set, and the set decides which declarations
are searched for literals. The two ways agree on a property exactly if no spelling of it is enabled
or its lowercase spelling is. So they agree on all properties exactly if with every spelling that is
enabled the same spelling in lower case is. -/
theorem checks_agree_iff_lowercase_enabled (s : Settings) :
    (∀ property : String,
      (s.isChecked property = true → lowercase property ∈ s.checkedSet) ∧
      ((s.isChecked property = true ↔ lowercase property ∈ s.checkedSet) ↔
        ∀ spelling, s.Enables spelling → lowercase spelling = lowercase property →
          s.Enables (lowercase property))) ∧
    ((∀ property : String, s.isChecked property = true ↔ lowercase property ∈ s.checkedSet) ↔
      ∀ spelling, s.Enables spelling → s.Enables (lowercase spelling)) ∧
    ∀ text, ∀ l ∈ (Sheet.ofString text).checkable,
      (l ∈ (Survey.ofString s.checkedSet text).values ↔ lowercase l.property ∈ s.checkedSet) := by
  refine ⟨?_, ?_, ?_⟩
  · intro property
    exact ⟨lowercase_mem_checkedSet_of_isChecked, isChecked_iff_mem_iff⟩
  · constructor
    · intro hagree spelling henables
      exact isChecked_iff_mem_iff.mp (hagree spelling) spelling henables rfl
    · intro hlower property
      apply isChecked_iff_mem_iff.mpr
      intro spelling henables hsame
      rw [← hsame]
      exact hlower spelling henables
  · intro text l hl
    exact mem_values_iff hl

/-- A property that is enabled with a capital letter does not pass the test, and yet its
declarations are searched for literals. -/
theorem capitalized_property_is_searched_unchecked :
    ∃ s : Settings, s.checkedProperties.toList = [("Fill", true), ("color", false)] ∧
      s.isChecked "fill" = false ∧ lowercase "fill" ∈ s.checkedSet ∧
      (Survey.ofString s.checkedSet ".a\x7bfill: red\x7d").values.map (·.value.text) = ["red"] := by
  refine ⟨{ Settings.byDefault with
    checkedProperties := .ofList [("color", false), ("Fill", true)] }, ?_⟩
  decide +kernel

end Settings

end StyleVars
