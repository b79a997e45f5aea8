import StyleVars.Text.Excerpt
import StyleVars.Text.Word

/-!
# Names

The name of a variable is two hyphens followed by name characters, at least one of them. An ordinary
name, of a property or a class, starts with an ASCII letter or an underscore, perhaps after one
hyphen, and goes on with name characters. So no name is of both kinds.
-/

namespace StyleVars

/-- Whether the text is the name of a variable. -/
def isVariableName : List Char → Bool
  | '-' :: '-' :: rest => !rest.isEmpty && rest.all isNameChar
  | _ => false

/-- Whether the text is an ordinary name. -/
def isOrdinaryName : List Char → Bool
  | '-' :: c :: rest => isNameStart c && rest.all isNameChar
  | c :: rest => isNameStart c && rest.all isNameChar
  | [] => false

namespace Excerpt

/-- The name of a variable at the start of a text, and what follows it. -/
def readVariableName? (e : Excerpt) : Option (Excerpt × Excerpt) :=
  match e.skip? ['-', '-'] with
  | none => none
  | some afterHyphens =>
    let rest := afterHyphens.dropWhile isNameChar
    if rest.chars.length < afterHyphens.chars.length then some (e.upTo rest, rest) else none

/-- An ordinary name at the start of a text, and what follows it. -/
def readOrdinaryName? (e : Excerpt) : Option (Excerpt × Excerpt) :=
  let afterHyphen := (e.skip? ['-']).getD e
  match afterHyphen.chars with
  | [] => none
  | c :: _ =>
    if isNameStart c then
      let rest := afterHyphen.dropWhile isNameChar
      some (e.upTo rest, rest)
    else none

theorem length_readVariableName? {e name rest : Excerpt}
    (h : e.readVariableName? = some (name, rest)) : rest.chars.length < e.chars.length := by
  unfold readVariableName? at h
  split at h
  · cases h
  · rename_i after hskip
    have hlen := length_skip? hskip
    simp only at h
    split at h
    · cases h
      simp only [List.length_cons, List.length_nil] at hlen
      omega
    · cases h

end Excerpt

end StyleVars
