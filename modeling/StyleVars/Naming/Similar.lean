import StyleVars.Naming.EditDistance

/-!
# Similar names

The similarity of two names is the share of the longer one that their edit distance leaves. Names
with a similarity above one half are worth offering in place of an unknown one. Shares are compared
as fractions, without rounding; quotients of doubles are in the same order while the lengths of the
names multiply to less than `2 ^ 53`.
-/

namespace StyleVars

/-- The fraction `kept / total`. -/
structure Similarity where
  kept : Nat
  total : Nat
deriving Repr, DecidableEq

namespace Similarity

/-- Similarity of two names; two empty names are entirely similar. -/
def ofNames (a b : String) : Similarity :=
  let longer := max a.length b.length
  if longer = 0 then ⟨1, 1⟩ else ⟨longer - editDistance a.toList b.toList, longer⟩

/-- The fraction as a double, rounded. -/
def toFloat (s : Similarity) : Float := Float.ofNat s.kept / Float.ofNat s.total

/-- Whether the similarity is above one half. While twice the total is below `2 ^ 53`, this is
whether the double is above 0.5. -/
def isClose (s : Similarity) : Bool := s.total < 2 * s.kept

/-- Whether `s` is the larger fraction. While the totals multiply to less than `2 ^ 53`, this is
whether its double is the larger one. -/
def exceeds (s t : Similarity) : Bool := t.kept * s.total < s.kept * t.total

end Similarity

/-- The order in which names are offered for `name`: the more similar first, and equally similar
ones by their text. -/
def offeredBefore (name a b : String) : Bool :=
  let s := Similarity.ofNames name a
  let t := Similarity.ofNames name b
  s.exceeds t || (!t.exceeds s && decide (a ≤ b))

/-- How many similar names are offered at most. -/
def similarLimit : Nat := 3

/-- The known names most similar to `name`. -/
def similarNames (name : String) (known : List String) : List String :=
  let close := known.filter fun k => k != name && (Similarity.ofNames name k).isClose
  (close.mergeSort (offeredBefore name)).take similarLimit

end StyleVars
