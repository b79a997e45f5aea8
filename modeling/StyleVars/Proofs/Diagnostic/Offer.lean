import StyleVars.Diagnostic.Check
import StyleVars.Proofs.Naming.Similar

/-!
# Names offered for an undefined one

A reference to a name that is not defined comes with names that may have been meant. They are taken
from the catalog and, where local definitions count, from the text itself. A name that both define,
or that the text defines twice, is taken more than once, and then it is offered more than once.
-/

namespace StyleVars

open Std

namespace Settings

variable (s : Settings) (catalog : Catalog) (sheet : Sheet)

/-- How often a name is known: once by the catalog, and where local definitions count, once by each
definition in the sheet. -/
def timesKnown (name : String) : Nat :=
  (if catalog.entries.contains name then 1 else 0) +
    if s.allowLocalDefinitions then sheet.definitions.countP (·.property.text == name) else 0

theorem count_knownNames (name : String) :
    (s.knownNames catalog sheet).count name = s.timesKnown catalog sheet name := by
  have hcatalog : catalog.names.count name = if catalog.entries.contains name then 1 else 0 := by
    rw [Catalog.names, TreeMap.nodup_keys.count]
    simp only [TreeMap.mem_keys, TreeMap.contains_iff_mem]
  have hlocal : (sheet.definitions.map (·.property.text)).count name =
      sheet.definitions.countP (·.property.text == name) := List.countP_map
  rw [knownNames, List.count_append, timesKnown, hcatalog]
  cases s.allowLocalDefinitions
  · rfl
  · exact congrArg _ hlocal

theorem mem_knownNames_iff {name : String} :
    name ∈ s.knownNames catalog sheet ↔ s.isDefined catalog sheet name := by
  rw [knownNames, List.mem_append, Catalog.names, TreeMap.mem_keys, isDefined, Bool.or_eq_true,
    Bool.and_eq_true, TreeMap.contains_iff_mem]
  cases s.allowLocalDefinitions <;> simp [Sheet.defines]

variable {s catalog} {text x : String} {d : Diagnostic} {similar : List String}

/-- Of the four groups of findings, only the first names anything similar. -/
theorem similar_eq_of_mem_diagnose (hd : d ∈ s.diagnose catalog text)
    (hfinding : d.finding = .undefinedVariable x similar) :
    similar = similarNames x (s.knownNames catalog (.ofString text)) := by
  rw [diagnose, check, List.mem_append, List.mem_append, List.mem_append] at hd
  obtain ((hd | hd) | hd) | hd := hd
  · obtain ⟨u, _, rfl⟩ := List.mem_map.mp hd
    cases hfinding
    rfl
  · obtain ⟨l, _, rfl⟩ := List.mem_map.mp hd
    rw [literalDiagnostic] at hfinding
    cases hfallback : l.isFallback <;> simp [hfallback] at hfinding
  · obtain ⟨name, _, hd⟩ := List.mem_flatMap.mp hd
    obtain ⟨r, _, rfl⟩ := List.mem_map.mp hd
    cases hfinding
  · obtain ⟨p, _, rfl⟩ := List.mem_map.mp hd
    cases hfinding

/-- The names offered for an undefined one are at most three, and they are the first of the ranking
of the names that are defined, each as often as it is known. They are the first three of the ranking
itself exactly when the two best names are known once. -/
theorem offered_names_are_ranked_iff_known_once (hd : d ∈ s.diagnose catalog text)
    (hfinding : d.finding = .undefinedVariable x similar) :
    let sheet := Sheet.ofString text
    ∃ ranked, IsRanking x (s.isDefined catalog sheet ·) ranked ∧
      similar = (repeated (s.timesKnown catalog sheet) ranked).take 3 ∧
      similar.length ≤ 3 ∧ (∀ y ∈ similar, y ∈ ranked) ∧
      (similar = ranked.take 3 ↔ ∀ y ∈ ranked.take 2, s.timesKnown catalog sheet y = 1) := by
  intro sheet
  obtain ⟨ranked, hranked⟩ := exists_isRanking x (s.knownNames catalog sheet)
  have hknown : (s.knownNames catalog sheet).count = s.timesKnown catalog sheet :=
    funext (s.count_knownNames catalog sheet)
  have hsimilar : similar = (repeated (s.timesKnown catalog sheet) ranked).take 3 := by
    rw [similar_eq_of_mem_diagnose hd hfinding, hranked.similarNames_eq, ← hknown]
    rfl
  refine ⟨ranked, ⟨hranked.strict, ?_⟩, hsimilar, ?_, ?_, ?_⟩
  · intro y
    rw [hranked.mem_iff, mem_knownNames_iff]
  · rw [hsimilar]
    exact List.length_take_le _ _
  · intro y hy
    rw [hsimilar] at hy
    exact mem_of_mem_repeated (List.mem_of_mem_take hy)
  · rw [hsimilar]
    refine take_succ_repeated_eq_iff hranked.nodup ?_ 2
    intro y hy
    rw [← count_knownNames]
    exact List.count_pos_iff.mpr ((hranked.mem_iff y).mp hy).1

/-- Names that are known in the order of the ranking are offered so, up to the limit. -/
theorem exists_offer (names : List String)
    (husage : ∃ u ∈ (Sheet.ofString text).usages,
      u.reference.name = x ∧ s.isDefined catalog (.ofString text) x = false)
    (hclose : closeNames x (s.knownNames catalog (.ofString text)) = names)
    (hordered : names.Pairwise (offeredBefore x · · = true)) :
    ∃ d ∈ s.diagnose catalog text, d.finding = .undefinedVariable x (names.take similarLimit) := by
  obtain ⟨u, hu, rfl, hundefined⟩ := husage
  have hsimilar : similarNames u.reference.name (s.knownNames catalog (.ofString text)) =
      names.take similarLimit := by
    rw [← List.mergeSort_of_pairwise hordered, ← hclose]
    rfl
  rw [← hsimilar]
  refine ⟨⟨u.range, s.undefinedSeverity, _⟩, ?_, rfl⟩
  rw [diagnose, check, List.mem_append, List.mem_append, List.mem_append]
  refine .inl (.inl (.inl (List.mem_map.mpr ⟨u, List.mem_filter.mpr ⟨hu, ?_⟩, rfl⟩)))
  rw [hundefined]
  rfl

/-- Of four similar names, two from a file and two from the text itself, the best three are
offered. -/
theorem offered_names_are_ranked_with_local_definitions :
    let path := Path.ofString "/project/a.css"
    let catalog := Catalog.empty.insert path
      (.ofText path "a \x7b --colors: 1; --size: 2; --colour: 3 \x7d")
    let text := "b \x7b --colon: 1; --dolor: 2; color: var(--color) \x7d"
    let similar := ["--colors", "--colour", "--colon"]
    (∃ d ∈ byDefault.diagnose catalog text, d.finding = .undefinedVariable "--color" similar) ∧
      ∃ ranked, IsRanking "--color" (byDefault.isDefined catalog (.ofString text) ·) ranked ∧
        similar = ranked.take 3 := by
  intro path catalog text similar
  have hfound : ∃ d ∈ byDefault.diagnose catalog text,
      d.finding = .undefinedVariable "--color" similar := by
    apply exists_offer ["--colors", "--colour", "--colon", "--dolor"]
    · decide +kernel
    · decide +kernel
    · decide +kernel
  have hknown : ∀ y ∈ byDefault.knownNames catalog (.ofString text),
      byDefault.timesKnown catalog (.ofString text) y = 1 := by
    decide +kernel
  obtain ⟨d, hd, hfinding⟩ := hfound
  obtain ⟨ranked, hranked, -, -, -, honce⟩ := offered_names_are_ranked_iff_known_once hd hfinding
  refine ⟨⟨d, hd, hfinding⟩, ranked, hranked, honce.mpr ?_⟩
  intro y hy
  have hdefined := ((hranked.mem_iff y).mp (List.mem_of_mem_take hy)).1
  exact hknown y ((mem_knownNames_iff ..).mpr hdefined)

/-- A name that the text defines and that the catalog has from the same text is offered twice. -/
theorem indexed_local_name_is_offered_twice :
    let path := Path.ofString "/project/a.css"
    let text := "a \x7b --colour: 1; color: var(--color) \x7d"
    let catalog := Catalog.empty.insert path (.ofText path text)
    ∃ d ∈ byDefault.diagnose catalog text,
      d.finding = .undefinedVariable "--color" ["--colour", "--colour"] := by
  intro path text catalog
  apply exists_offer ["--colour", "--colour"]
  · decide +kernel
  · decide +kernel
  · decide +kernel

end Settings

end StyleVars
