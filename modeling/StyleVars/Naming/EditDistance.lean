/-!
# Edit distance

The distance of two texts is the least number of insertions, deletions and substitutions of single
characters that turn one into the other. It is computed row by row: a row holds the distances from a
beginning of the first text to every beginning of the second.
-/

namespace StyleVars

/-- The rest of the row after `a`, from the rest of the row before it. `corner` is the distance
above and to the left, `left` the distance last computed. -/
def nextCells (a : Char) : (corner left : Nat) → List Char → List Nat → List Nat
  | corner, left, b :: bs, up :: ups =>
    let cell := min (min (corner + if a = b then 0 else 1) (up + 1)) (left + 1)
    cell :: nextCells a up cell bs ups
  | _, _, _, _ => []

/-- The row after one more character `a` of the first text. -/
def nextRow (bs : List Char) (row : List Nat) (a : Char) : List Nat :=
  match row with
  | [] => []
  | corner :: ups => (corner + 1) :: nextCells a corner (corner + 1) bs ups

/-- Edit distance of two texts. -/
def editDistance (as bs : List Char) : Nat :=
  ((as.foldl (nextRow bs) (List.range (bs.length + 1))).getLast?).getD 0

end StyleVars
