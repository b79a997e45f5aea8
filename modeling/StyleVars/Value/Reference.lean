import StyleVars.Text.Name

/-!
# References to variables

A reference is `var(`, the name of a variable, an optional fallback after a comma, and `)`, with
blanks allowed around the name. The fallback ends at the first closing parenthesis, also where it
holds an opening one. References are found from left to right and do not overlap; where `var(` does
not start a reference, the search goes on with the next character.
-/

namespace StyleVars

structure Reference where
  name : String
  /-- The text after the comma without blanks at its ends, unless it is blank altogether. -/
  fallback : Option Excerpt
  /-- The whole reference, from `var(` to the closing parenthesis. -/
  source : Excerpt
deriving Repr, DecidableEq

namespace Reference

/-- The end of a reference, after its name: the fallback, and what follows the closing
parenthesis. -/
def readEnd? (e : Excerpt) : Option (Option Excerpt × Excerpt) :=
  match e.skip? [')'] with
  | some rest => some (none, rest)
  | none =>
    match e.skip? [','] with
    | none => none
    | some body =>
      let (fallback, closing) := body.splitWhile (· != ')')
      (closing.skip? [')']).map fun rest =>
        (if fallback.trim.isEmpty then none else some fallback.trim, rest)

/-- A reference at the very start of a text, and what follows it. -/
def read? (e : Excerpt) : Option (Reference × Excerpt) := do
  let opened ← e.skip? ['v', 'a', 'r', '(']
  let (name, afterName) ← (opened.dropWhile isBlank).readVariableName?
  let (fallback, rest) ← readEnd? (afterName.dropWhile isBlank)
  return (⟨name.text, fallback, e.upTo rest⟩, rest)

theorem length_readEnd? {e rest : Excerpt} {fallback : Option Excerpt}
    (h : readEnd? e = some (fallback, rest)) : rest.chars.length < e.chars.length := by
  unfold readEnd? at h
  split at h
  · rename_i hskip
    have hlen := Excerpt.length_skip? hskip
    cases h
    simp only [List.length_cons, List.length_nil] at hlen
    omega
  · split at h
    · cases h
    · rename_i body hskip
      have hlen := Excerpt.length_skip? hskip
      obtain ⟨after, hafter, heq⟩ := Option.map_eq_some_iff.mp h
      cases heq
      have hclose := Excerpt.length_skip? hafter
      have hdrop : (body.chars.dropWhile (· != ')')).length ≤ body.chars.length :=
        Excerpt.length_dropWhile_le (· != ')') body
      simp only [List.length_cons, List.length_nil] at hlen hclose
      omega

/-- What follows a reference is shorter than what it was read from, so the search ends. -/
theorem length_read? {e rest : Excerpt} {r : Reference} (h : read? e = some (r, rest)) :
    rest.chars.length < e.chars.length := by
  simp only [read?, Option.bind_eq_bind, Option.bind_eq_some_iff] at h
  obtain ⟨opened, hopen, ⟨name, afterName⟩, hname, ⟨fallback, after⟩, hend, heq⟩ := h
  cases heq
  have h₁ := Excerpt.length_skip? hopen
  have h₂ := Excerpt.length_readVariableName? hname
  have h₃ := length_readEnd? hend
  have h₄ := Excerpt.length_dropWhile_le isBlank opened
  have h₅ := Excerpt.length_dropWhile_le isBlank afterName
  simp only [List.length_cons, List.length_nil] at h₁ h₂ h₃ ⊢
  omega

end Reference

/-- The references in a text, from left to right. -/
def Excerpt.references (e : Excerpt) : List Reference :=
  match h : Reference.read? e with
  | some (r, rest) =>
    have := Reference.length_read? h
    r :: rest.references
  | none =>
    match hc : e.chars with
    | [] => []
    | c :: cs =>
      have : cs.length < e.chars.length := by simp [hc]
      (⟨e.start + c.utf8Size, cs⟩ : Excerpt).references
termination_by e.chars.length

end StyleVars
