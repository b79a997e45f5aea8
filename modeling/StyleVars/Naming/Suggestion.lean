import StyleVars.Color.Reader

/-!
# Suggested variables

A variable is suggested in place of a literal when its value is the same, or when both are colours
and close to each other. Equal values score 100 and closeness of colours up to 50. Variables are
ranked by their score in steps of five points, within a step by how often they are used, then by
their exact score, and last by name.
-/

namespace StyleVars

/-- A variable that may be suggested, with its value. -/
structure Candidate where
  name : String
  value : String
  usage : Nat
deriving Repr, DecidableEq

structure Suggestion where
  name : String
  value : String
  score : Float
  usage : Nat

namespace Suggestion

/-- The greatest distance of two colours, rounded. -/
def farthest : Float := 441.67

/-- How close two values are as colours, from zero to fifty; zero unless both are colours. -/
def closeness (target value : String) : Float :=
  match Color.ofText? target, Color.ofText? value with
  | some wanted, some found =>
    let share := 1.0 - wanted.distance found / farthest
    (if share < 0.0 then 0.0 else share) * 50.0
  | _, _ => 0.0

/-- Whether a value is the target, which has no blanks at its ends, up to letter case. -/
def isMatch (target value : String) : Bool := sameIgnoringCase (trim value) target

/-- The points for a value: a hundred for the target itself, and those for its closeness. -/
def points (target value : String) : Float :=
  (if isMatch target value then 100.0 else 0.0) + closeness target value

/-- The suggestion that a candidate makes for a target without blanks at its ends. -/
def ofCandidate (target : String) (c : Candidate) : Suggestion :=
  { name := c.name
    value := c.value
    score := points target c.value
    usage := c.usage }

/-- The step of five points in which the score lies. Scores are never negative. -/
def bucket (s : Suggestion) : Nat := (s.score / 5.0).toUInt64.toNat

/-- The order of rank. -/
def ranksBefore (a b : Suggestion) : Bool :=
  if a.bucket ≠ b.bucket then b.bucket < a.bucket
  else if a.usage ≠ b.usage then b.usage < a.usage
  else if a.score < b.score ∨ b.score < a.score then b.score < a.score
  else a.name ≤ b.name

/-- How many variables are suggested where no number is asked for. -/
def defaultLimit : Nat := 5

end Suggestion

/-- The `limit` best suggestions among the candidates in place of `value`. -/
def suggestions (value : String) (candidates : List Candidate) (limit : Nat) : List Suggestion :=
  let found := (candidates.map (Suggestion.ofCandidate (trim value))).filter fun s => 0.0 < s.score
  (found.mergeSort Suggestion.ranksBefore).take limit

end StyleVars
