import StyleVars.Text.Excerpt

/-!
# Quotes and parentheses

Declarations are divided at semicolons and values at blanks and commas, but only where the divider
stands at the top: outside quotes and outside parentheses. A quote runs to the next quote of the
same kind, whatever stands between. A closing parenthesis without a partner closes nothing.
-/

namespace StyleVars

/-- How deep a place in a text stands in quotes and parentheses. -/
structure Nesting where
  quote : Option Char
  depth : Nat
deriving Repr, DecidableEq

namespace Nesting

/-- Outside all quotes and parentheses. -/
def top : Nesting := ⟨none, 0⟩

def isTop (n : Nesting) : Bool := n.quote.isNone && n.depth == 0

/-- The nesting after the character `c`. -/
def step (n : Nesting) (c : Char) : Nesting :=
  match n.quote with
  | some q => if c = q then ⟨none, n.depth⟩ else n
  | none =>
    if c = '"' ∨ c = '\'' then ⟨some c, n.depth⟩
    else if c = '(' then ⟨none, n.depth + 1⟩
    else if c = ')' then ⟨none, n.depth - 1⟩
    else n

end Nesting

namespace Excerpt

/-- Divide the text at the separators that stand at the top. There is one piece more than there
are such separators; pieces may be empty. -/
def splitTop (isSeparator : Char → Bool) (e : Excerpt) : List Excerpt :=
  go .top e.start e.chars
where
  go (n : Nesting) (start : Nat) : List Char → List Excerpt
    | [] => [⟨start, []⟩]
    | c :: cs =>
      if n.isTop && isSeparator c then ⟨start, []⟩ :: go n (start + c.utf8Size) cs
      else
        match go (n.step c) (start + c.utf8Size) cs with
        | [] => []
        | piece :: pieces => ⟨start, c :: piece.chars⟩ :: pieces

end Excerpt

end StyleVars
