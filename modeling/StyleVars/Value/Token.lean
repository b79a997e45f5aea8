import StyleVars.Text.Letter
import StyleVars.Text.Nesting

/-!
# Parts of a value

A value may end in `!important`, which is no part of what it says. The rest falls into tokens: what
stands between the blanks and commas that are outside quotes and parentheses. Closing parentheses
without a partner do not start a token.
-/

namespace StyleVars

/-- Whether the character divides tokens. -/
def dividesTokens (c : Char) : Bool := isBlank c || c == ','

namespace Excerpt

/-- The tokens of a value, in order. -/
def tokens (e : Excerpt) : List Excerpt :=
  ((e.splitTop dividesTokens).map (·.dropWhile (· == ')'))).filter (!·.isEmpty)

/-- The value without the blanks at its end and without `!important`, and whether it had that. -/
def withoutImportant (e : Excerpt) : Excerpt × Bool :=
  let e := e.trimEnd
  let mark := (e.chars.reverse.takeWhile (· != '!')).reverse
  if mark.length < e.chars.length ∧ trimBlanks (lowerAscii mark) = "important".toList then
    ((⟨e.start, e.chars.take (e.chars.length - mark.length - 1)⟩ : Excerpt).trimEnd, true)
  else (e, false)

end Excerpt

end StyleVars
