import StyleVars.Proofs.Resolution.Walk
import StyleVars.Proofs.Value.Occurrence

/-!
# Resolutions compose

What stands behind a reference is resolved after other names and with fewer steps than if one had
asked for its name alone. Neither can change a resolution that succeeds: the names before it are
only put in front of its chain. So a name that resolves takes its value from what the name it refers
to resolves to alone, in place of the first text that is a plain reference to it.
-/

namespace StyleVars

/-! ## The first occurrence of a text -/

/-- The `needle` stands in the text after `before`, and nowhere earlier. -/
structure FirstOccurrence (needle text before after : List Char) : Prop where
  text_eq : text = before ++ (needle ++ after)
  length_le {earlier later : List Char} :
    text = earlier ++ (needle ++ later) → before.length ≤ earlier.length

/-- The `result` is the text with the replacement in place of the first `needle`, or the text itself
if the `needle` does not occur. -/
def ReplacesFirst (needle replacement text result : List Char) : Prop :=
  (∃ before after, FirstOccurrence needle text before after ∧
    result = before ++ (replacement ++ after)) ∨ ¬needle <:+: text ∧ result = text

section Replace

variable {needle text before after : List Char}

theorem FirstOccurrence.cons {c : Char} (h : FirstOccurrence needle text before after)
    (hstarts : ¬needle <+: c :: text) : FirstOccurrence needle (c :: text) (c :: before) after where
  text_eq := by rw [h.text_eq, List.cons_append]
  length_le {earlier later} heq := by
    cases earlier with
    | nil => exact absurd ⟨later, heq.symm⟩ hstarts
    | cons d earlier => exact Nat.succ_le_succ (h.length_le (List.cons.inj heq).2)

theorem replacesFirst_replaceFirst (needle replacement text : List Char) :
    ReplacesFirst needle replacement text (replaceFirst needle replacement text) := by
  induction text with
  | nil =>
    rw [replaceFirst]
    cases needle with
    | nil => exact .inl ⟨[], [], ⟨rfl, fun _ => Nat.zero_le _⟩, by simp⟩
    | cons c cs => exact .inr ⟨by simp, rfl⟩
  | cons c cs ih =>
    rw [replaceFirst]
    split
    · rename_i hstarts
      obtain ⟨after, hafter⟩ := List.isPrefixOf_iff_prefix.mp hstarts
      refine .inl ⟨[], after, ⟨hafter.symm, fun _ => Nat.zero_le _⟩, ?_⟩
      rw [← hafter, List.drop_left, List.nil_append]
    · rename_i hstarts
      rw [List.isPrefixOf_iff_prefix] at hstarts
      rcases ih with ⟨before, after, hfirst, hresult⟩ | ⟨hoccurs, hresult⟩
      · exact .inl ⟨c :: before, after, hfirst.cons hstarts, by rw [hresult, List.cons_append]⟩
      · refine .inr ⟨?_, by rw [hresult]⟩
        rw [List.infix_cons_iff, not_or]
        exact ⟨hstarts, hoccurs⟩

theorem FirstOccurrence.replaceFirst_eq (h : FirstOccurrence needle text before after)
    (replacement : List Char) :
    replaceFirst needle replacement text = before ++ (replacement ++ after) := by
  rcases replacesFirst_replaceFirst needle replacement text with
    ⟨before', after', hfirst, hresult⟩ | ⟨hoccurs, -⟩
  · have hlength : before.length = before'.length :=
      Nat.le_antisymm (h.length_le hfirst.text_eq) (hfirst.length_le h.text_eq)
    obtain ⟨rfl, hrest⟩ := List.append_inj (h.text_eq.symm.trans hfirst.text_eq) hlength
    rw [hresult, List.append_cancel_left hrest]
  · exact absurd ⟨before, after, by rw [h.text_eq, List.append_assoc]⟩ hoccurs

theorem replaceFirst_of_absent (h : ¬needle <:+: text) (replacement : List Char) :
    replaceFirst needle replacement text = text := by
  rcases replacesFirst_replaceFirst needle replacement text with
    ⟨before, after, hfirst, -⟩ | ⟨-, hresult⟩
  · exact absurd ⟨before, after, by rw [hfirst.text_eq, List.append_assoc]⟩ h
  · exact hresult

end Replace

/-- A plain reference that is found first is the first text of its kind. -/
theorem Excerpt.Finds.firstOccurrence {e rest : Excerpt} {r : Reference} {before : List Char}
    (h : e.Finds before r rest) (hplain : r.source.chars = plainReference r.name) :
    FirstOccurrence (plainReference r.name) e.chars before rest.chars where
  text_eq := hplain ▸ h.chars_eq
  length_le heq := h.length_le_of_plain heq

namespace Catalog

variable {c : Catalog} {n name : String} {info : VariableInfo} {r : Reference}

/-! ## Resolving in a context -/

/-- A resolution that succeeds after other names and in some steps comes to the same without these
names and with more steps. -/
theorem resolveFrom_ok_of_context {steps more : Nat} {before chain : List String}
    {found : VariableInfo} (hle : steps ≤ more)
    (h : (c.resolveFrom steps name (before ++ chain)).outcome = .ok found) :
    (c.resolveFrom more name chain).outcome = .ok found ∧
      (c.resolveFrom steps name (before ++ chain)).chain =
        before ++ (c.resolveFrom more name chain).chain := by
  induction steps generalizing more name chain found with
  | zero => cases h
  | succ steps ih =>
    obtain ⟨more, rfl⟩ : ∃ later, more = later + 1 :=
      Nat.exists_eq_add_one_of_ne_zero (by omega)
    by_cases hmem : name ∈ before ++ chain
    · rw [resolveFrom_of_mem hmem] at h
      cases h
    have hmem' : name ∉ chain := fun hin => hmem (List.mem_append_right before hin)
    cases hget : c.get? name with
    | none =>
      rw [resolveFrom_of_undeclared hmem hget] at h
      cases h
    | some info =>
      cases hfirst : info.first? with
      | none =>
        rw [resolveFrom_of_literal hmem hget hfirst] at h ⊢
        rw [resolveFrom_of_literal hmem' hget hfirst]
        exact ⟨h, List.append_assoc before chain [name]⟩
      | some r =>
        have hassoc : before ++ chain ++ [name] = before ++ (chain ++ [name]) :=
          List.append_assoc before chain [name]
        cases hnested : (c.resolveFrom steps r.name (before ++ chain ++ [name])).outcome with
        | ok inner =>
          obtain ⟨hinner, hchain⟩ := ih (Nat.le_of_succ_le_succ hle) (hassoc ▸ hnested)
          rw [resolveFrom_of_nested_ok hmem hget hfirst hnested] at h ⊢
          rw [resolveFrom_of_nested_ok hmem' hget hfirst hinner]
          exact ⟨h, hassoc ▸ hchain⟩
        | error failure =>
          by_cases hundeclared : failure = .undeclared
          · subst hundeclared
            -- The reference leads to a name without a variable, in any context.
            obtain ⟨hpos, hnew, hnone⟩ := outcome_eq_undeclared_iff.mp hnested
            have hmissing : (c.resolveFrom more r.name (chain ++ [name])).outcome =
                .error .undeclared := by
              apply outcome_eq_undeclared_iff.mpr
              refine ⟨by omega, fun hin => hnew ?_, hnone⟩
              exact hassoc ▸ List.mem_append_right before hin
            rw [resolveFrom_of_nested_undeclared hmem hget hfirst hnested] at h ⊢
            rw [resolveFrom_of_nested_undeclared hmem' hget hfirst hmissing]
            exact ⟨h, hassoc⟩
          · rw [resolveFrom_of_nested_error hmem hget hfirst hundeclared hnested] at h
            cases h

theorem value?_of_outcome {found : VariableInfo} (h : (c.resolve n).outcome = .ok found) :
    (c.resolve n).value? = some (found.resolved.getD "") := by
  obtain ⟨info, value, -, rfl⟩ := resolveFrom_ok h
  simp [Resolution.value?, h]

theorem value?_of_get?_eq_none (h : c.get? n = none) : (c.resolve n).value? = none := by
  have hresolve : c.resolve n = _ := resolveFrom_of_undeclared (by simp) h
  rw [hresolve]
  rfl

/-- Behind the first reference of a variable that resolves stands a name that resolves alone, unless
it has no variable. -/
theorem resolve_of_reference (hget : c.get? n = some info) (hfirst : info.first? = some r)
    (hfound : (c.resolve n).Found) :
    (∃ inner, (c.resolve r.name).value? = some inner ∧
      c.resolve n = ⟨n, n :: (c.resolve r.name).chain,
        .ok { info with resolved := some (String.ofList
          (replaceFirst (plainReference r.name) inner.toList info.entry.value.toList)) }⟩) ∨
      c.get? r.name = none ∧
        c.resolve n = ⟨n, [n], .ok { info with resolved := some info.entry.value }⟩ := by
  have hnew : n ∉ ([] : List String) := by simp
  obtain ⟨found, hok⟩ := hfound
  have hsteps : c.resolve n = c.resolveFrom (9 + 1) n [] := rfl
  rw [hsteps] at hok ⊢
  cases hnested : (c.resolveFrom 9 r.name [n]).outcome with
  | ok inner =>
    have hle : 9 ≤ depthLimit := by decide
    have hbehind : (c.resolveFrom 9 r.name ([n] ++ [])).outcome = .ok inner := hnested
    obtain ⟨hinner, hchain⟩ := resolveFrom_ok_of_context hle hbehind
    refine .inl ⟨_, value?_of_outcome hinner, ?_⟩
    rw [resolveFrom_of_nested_ok hnew hget hfirst hnested]
    exact congrArg (Resolution.mk n · _) hchain
  | error failure =>
    by_cases hundeclared : failure = .undeclared
    · subst hundeclared
      obtain ⟨-, -, hnone⟩ := outcome_eq_undeclared_iff.mp hnested
      exact .inr ⟨hnone, resolveFrom_of_nested_undeclared hnew hget hfirst hnested⟩
    · rw [resolveFrom_of_nested_error hnew hget hfirst hundeclared hnested] at hok
      cases hok

/-- Let a variable that resolves refer first to `r.name`. If this name has a variable, then it
resolves too; the one chain is the other with `n` in front, and the value is what is written, with
the value of `r.name` in place of the first text that is a plain reference to it. If the reference
is written plainly, this text is the reference itself. If `r.name` has no variable, the value is
what is written. All else is as in the catalog. -/
theorem resolve_composes (hget : c.get? n = some info) (hfirst : info.first? = some r)
    (hfound : (c.resolve n).Found) :
    ((c.get? r.name).isSome → ∃ inner result,
      (c.resolve r.name).Found ∧ (c.resolve r.name).value? = some inner ∧
      (c.resolve n).chain = n :: (c.resolve r.name).chain ∧
      (c.resolve n).outcome = .ok { info with resolved := some result } ∧
      ReplacesFirst (plainReference r.name) inner.toList info.entry.value.toList result.toList ∧
      (r.source.chars = plainReference r.name → ∃ before after,
        FirstOccurrence (plainReference r.name) info.entry.value.toList before after ∧
        r.source.span = ⟨byteSize before, byteSize (before ++ plainReference r.name)⟩ ∧
        result.toList = before ++ (inner.toList ++ after))) ∧
    (c.get? r.name = none →
      (c.resolve n).chain = [n] ∧
      (c.resolve n).outcome = .ok { info with resolved := some info.entry.value }) := by
  rcases resolve_of_reference hget hfirst hfound with ⟨inner, hinner, hresolve⟩ | ⟨hnone, hresolve⟩
  · have hinnerFound : (c.resolve r.name).Found :=
      (c.isSome_value?_resolve r.name).mp (by simp [hinner])
    constructor
    · intro _
      refine ⟨inner, _, hinnerFound, hinner, by rw [hresolve], by rw [hresolve], ?_, ?_⟩
      · rw [String.toList_ofList]
        exact replacesFirst_replaceFirst _ _ _
      · intro hplain
        obtain ⟨rs, hrs⟩ := List.head?_eq_some_iff.mp hfirst
        obtain ⟨before, rest, hfinds, -⟩ := Excerpt.exists_finds hrs
        have hoccurrence := hfinds.firstOccurrence hplain
        have hstart : r.source.start = byteSize before :=
          hfinds.start_source.trans (Nat.zero_add _)
        refine ⟨before, rest.chars, hoccurrence, ?_, ?_⟩
        · rw [Excerpt.span, Excerpt.stop, hstart, hplain, byteSize_append]
        · rw [String.toList_ofList]
          exact hoccurrence.replaceFirst_eq inner.toList
    · intro hnone
      rw [value?_of_get?_eq_none hnone] at hinner
      cases hinner
  · constructor
    · intro hsome
      rw [hnone] at hsome
      cases hsome
    · intro _
      rw [hresolve]
      exact ⟨rfl, rfl⟩

/-- The value of `--b` has a reference that is not written plainly before the one that is replaced,
and the value of `--c` has its reference twice. -/
theorem resolve_composes_with_repeated_reference :
    let path : Path := .ofString "/project/a.css"
    let c := Catalog.empty.insert path (.ofText path
      ":root \x7b --a: 1px; --b: var( --a) var(--a); --c: calc(var(--b) + var(--b)) \x7d")
    (c.resolve "--b").value? = some "var( --a) 1px" ∧
      (c.resolve "--c").chain = "--c" :: (c.resolve "--b").chain ∧
      (c.resolve "--c").value? = some "calc(var( --a) 1px + var(--b))" ∧
      ∃ before after, byteSize before = 5 ∧
        FirstOccurrence (plainReference "--b") "calc(var(--b) + var(--b))".toList before after := by
  intro path c
  let info : VariableInfo :=
    ⟨⟨"--c", "calc(var(--b) + var(--b))", path, ⟨⟨0, 43⟩, ⟨0, 73⟩⟩⟩, 0, none⟩
  let r : Reference := ⟨"--b", none, ⟨5, plainReference "--b"⟩⟩
  obtain ⟨hget, hdeclared, hinner, hvalue⟩ : c.get? "--c" = some info ∧
      (c.get? r.name).isSome ∧ (c.resolve "--b").value? = some "var( --a) 1px" ∧
      (c.resolve "--c").value? = some "calc(var( --a) 1px + var(--b))" := by
    decide +kernel
  have hfirst : info.first? = some r := by decide +kernel
  have hfound : (c.resolve "--c").Found :=
    (c.isSome_value?_resolve "--c").mp (hvalue ▸ rfl)
  obtain ⟨inner, result, -, -, hchain, -, -, hplace⟩ :=
    (resolve_composes hget hfirst hfound).1 hdeclared
  obtain ⟨before, after, hoccurrence, hspan, -⟩ := hplace rfl
  have hstart : 5 = byteSize before := congrArg Span.start hspan
  exact ⟨hinner, hchain, hvalue, before, after, hstart.symm, hoccurrence⟩

end Catalog

end StyleVars
