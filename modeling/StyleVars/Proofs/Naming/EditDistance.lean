import StyleVars.Naming.Similar
import Mathlib.Order.Bounds.Basic

/-!
# The edit distance is a distance

A text is edited by inserting, deleting or replacing one character anywhere in it. The fewest edits
that lead from one text to another are computed by a table of which only one row is kept at a time.
Three facts connect the two. Each row holds the values of a recursion over the ends of both texts;
the recursion can be followed by that many edits; and a single edit changes its value by one at
most, wherever it is made. That the fewest edits form a distance is then a matter of running edits
backwards and one after another.
-/

namespace StyleVars

/-- One insertion, deletion or substitution of a character, at the front of a text or behind
characters that stay. -/
inductive Edit : List Char → List Char → Prop where
  | insert (c : Char) (cs : List Char) : Edit cs (c :: cs)
  | delete (c : Char) (cs : List Char) : Edit (c :: cs) cs
  | substitute (c d : Char) (cs : List Char) : Edit (c :: cs) (d :: cs)
  | later (c : Char) {cs ds : List Char} : Edit cs ds → Edit (c :: cs) (c :: ds)

/-- `Edits n as bs` says that `n` edits, one after the other, turn `as` into `bs`. -/
inductive Edits : Nat → List Char → List Char → Prop where
  | none (cs : List Char) : Edits 0 cs cs
  | more {n : Nat} {as bs cs : List Char} : Edits n as bs → Edit bs cs → Edits (n + 1) as cs

namespace Edit

theorem symm {as bs : List Char} (h : Edit as bs) : Edit bs as := by
  induction h with
  | insert c cs => exact .delete c cs
  | delete c cs => exact .insert c cs
  | substitute c d cs => exact .substitute d c cs
  | later c _ ih => exact .later c ih

theorem append_left {as bs : List Char} (h : Edit as bs) (cs : List Char) :
    Edit (cs ++ as) (cs ++ bs) := by
  induction cs with
  | nil => exact h
  | cons c cs ih => exact .later c ih

theorem append_right {as bs : List Char} (h : Edit as bs) (cs : List Char) :
    Edit (as ++ cs) (bs ++ cs) := by
  induction h with
  | insert c as => exact .insert c (as ++ cs)
  | delete c as => exact .delete c (as ++ cs)
  | substitute c d as => exact .substitute c d (as ++ cs)
  | later c _ ih => exact .later c ih

theorem reverse {as bs : List Char} (h : Edit as bs) : Edit as.reverse bs.reverse := by
  induction h with
  | insert c cs => simpa using (Edit.insert c []).append_left cs.reverse
  | delete c cs => simpa using (Edit.delete c []).append_left cs.reverse
  | substitute c d cs => simpa using (Edit.substitute c d []).append_left cs.reverse
  | later c _ ih => simpa using ih.append_right [c]

end Edit

namespace Edits

variable {n m : Nat} {as bs cs : List Char}

theorem zero_iff : Edits 0 as bs ↔ as = bs := by
  constructor
  · intro h
    cases h
    rfl
  · rintro rfl
    exact .none as

theorem trans (h : Edits n as bs) (h' : Edits m bs cs) : Edits (n + m) as cs := by
  induction h' with
  | none => exact h
  | more _ hlast ih => exact (ih h).more hlast

theorem first (hfirst : Edit as bs) (h : Edits n bs cs) : Edits (n + 1) as cs := by
  have htwo := ((Edits.none as).more hfirst).trans h
  rwa [Nat.zero_add, Nat.add_comm] at htwo

theorem symm (h : Edits n as bs) : Edits n bs as := by
  induction h with
  | none => exact .none _
  | more _ hlast ih => exact ih.first hlast.symm

theorem later (c : Char) (h : Edits n as bs) : Edits n (c :: as) (c :: bs) := by
  induction h with
  | none => exact .none _
  | more _ hlast ih => exact ih.more (.later c hlast)

theorem reverse (h : Edits n as bs) : Edits n as.reverse bs.reverse := by
  induction h with
  | none => exact .none _
  | more _ hlast ih => exact ih.more hlast.reverse

theorem lesser (h : Edits n as bs) (h' : Edits m as bs) : Edits (min n m) as bs := by
  rcases Nat.le_total n m with hle | hle
  · rwa [Nat.min_eq_left hle]
  · rwa [Nat.min_eq_right hle]

theorem insertAll (bs : List Char) : Edits bs.length [] bs := by
  induction bs with
  | nil => exact .none []
  | cons b bs ih => exact ih.more (.insert b bs)

end Edits

/-- The distance by recursion over both texts: their first characters are matched, or one of them is
left out. -/
def recursiveDistance : List Char → List Char → Nat
  | [], bs => bs.length
  | a :: as, [] => (a :: as).length
  | a :: as, b :: bs =>
    min (min (recursiveDistance as bs + if a = b then 0 else 1) (recursiveDistance as (b :: bs) + 1))
      (recursiveDistance (a :: as) bs + 1)

section Recursion

variable {as bs : List Char}

theorem recursiveDistance_nil_right (as : List Char) : recursiveDistance as [] = as.length := by
  cases as <;> simp [recursiveDistance]

theorem recursiveDistance_cons_cons (a b : Char) (as bs : List Char) :
    recursiveDistance (a :: as) (b :: bs) =
      min (min (recursiveDistance as bs + if a = b then 0 else 1)
        (recursiveDistance as (b :: bs) + 1)) (recursiveDistance (a :: as) bs + 1) := by
  rw [recursiveDistance]

theorem recursiveDistance_self (as : List Char) : recursiveDistance as as = 0 := by
  induction as with
  | nil => simp [recursiveDistance]
  | cons a as ih =>
    rw [recursiveDistance_cons_cons]
    simp [ih]

theorem recursiveDistance_le_max (as bs : List Char) :
    recursiveDistance as bs ≤ max as.length bs.length := by
  fun_induction recursiveDistance as bs with
  | case1 bs => omega
  | case2 a as => omega
  | case3 a as b bs ihboth ihleft ihright =>
    simp only [List.length_cons] at ihboth ihleft ihright ⊢
    split <;> omega

/-- The recursion can be followed by edits. -/
theorem edits_recursiveDistance (as bs : List Char) : Edits (recursiveDistance as bs) as bs := by
  fun_induction recursiveDistance as bs with
  | case1 bs => exact .insertAll bs
  | case2 a as => exact (Edits.insertAll (a :: as)).symm
  | case3 a as b bs ihboth ihleft ihright =>
    have hmatched : Edits (recursiveDistance as bs + if a = b then 0 else 1) (a :: as) (b :: bs) := by
      split
      · rename_i hsame
        rw [hsame]
        exact ihboth.later b
      · exact (ihboth.later a).more (.substitute a b bs)
    have hdeleted : Edits (recursiveDistance as (b :: bs) + 1) (a :: as) (b :: bs) :=
      ihleft.first (.delete a as)
    have hinserted : Edits (recursiveDistance (a :: as) bs + 1) (a :: as) (b :: bs) :=
      ihright.more (.insert b bs)
    exact (hmatched.lesser hdeleted).lesser hinserted

/-- From no text is `bs` more than one step farther than `cs`. -/
def AtMostOneFarther (bs cs : List Char) : Prop :=
  ∀ as, recursiveDistance as bs ≤ recursiveDistance as cs + 1

theorem recursiveDistance_cons_left_le (a : Char) (as bs : List Char) :
    recursiveDistance (a :: as) bs ≤ recursiveDistance as bs + 1 := by
  cases bs with
  | nil => simp [recursiveDistance_nil_right]
  | cons b bs =>
    rw [recursiveDistance_cons_cons]
    omega

theorem atMostOneFarther_insert (c : Char) (cs : List Char) : AtMostOneFarther (c :: cs) cs := by
  intro as
  cases as with
  | nil => simp [recursiveDistance]
  | cons a as =>
    rw [recursiveDistance_cons_cons]
    omega

theorem atMostOneFarther_delete (c : Char) (cs : List Char) : AtMostOneFarther cs (c :: cs) := by
  intro as
  induction as with
  | nil =>
    simp only [recursiveDistance, List.length_cons]
    omega
  | cons a as ih =>
    have hleft := recursiveDistance_cons_left_le a as cs
    rw [recursiveDistance_cons_cons]
    omega

theorem atMostOneFarther_substitute (c d : Char) (cs : List Char) :
    AtMostOneFarther (d :: cs) (c :: cs) := by
  intro as
  induction as with
  | nil => simp [recursiveDistance]
  | cons a as ih =>
    simp only [recursiveDistance_cons_cons]
    split <;> split <;> omega

/-- What holds of two texts holds of them behind a common first character. -/
theorem AtMostOneFarther.cons {bs cs : List Char} (h : AtMostOneFarther bs cs) (c : Char) :
    AtMostOneFarther (c :: bs) (c :: cs) := by
  intro as
  induction as with
  | nil =>
    have hnil := h []
    simp only [recursiveDistance, List.length_cons] at hnil ⊢
    omega
  | cons a as ih =>
    have hboth := h as
    have hright := h (a :: as)
    simp only [recursiveDistance_cons_cons]
    omega

theorem Edit.atMostOneFarther (h : Edit as bs) : AtMostOneFarther bs as := by
  induction h with
  | insert c cs => exact atMostOneFarther_insert c cs
  | delete c cs => exact atMostOneFarther_delete c cs
  | substitute c d cs => exact atMostOneFarther_substitute c d cs
  | later c _ ih => exact ih.cons c

theorem Edits.recursiveDistance_le {n : Nat} (h : Edits n as bs) :
    recursiveDistance as bs ≤ n := by
  induction h with
  | none cs => exact Nat.le_of_eq (recursiveDistance_self cs)
  | more _ hlast ih => exact Nat.le_trans (hlast.atMostOneFarther _) (Nat.succ_le_succ ih)

end Recursion

section Rows

/-- The cells of a row behind the characters `seen`, last one first. The row is the one after the
characters `done`, last one first too. -/
def cellsAfter (done seen : List Char) : List Char → List Nat
  | [] => []
  | b :: bs => recursiveDistance done (b :: seen) :: cellsAfter done (b :: seen) bs

/-- The whole row after the characters `done`. -/
def rowAfter (done bs : List Char) : List Nat := recursiveDistance done [] :: cellsAfter done [] bs

theorem cellsAfter_nil (seen bs : List Char) :
    cellsAfter [] seen bs = List.range' (seen.length + 1) bs.length := by
  induction bs generalizing seen with
  | nil => rfl
  | cons b bs ih => simp [cellsAfter, ih, recursiveDistance, List.range'_succ]

theorem rowAfter_nil (bs : List Char) : rowAfter [] bs = List.range (bs.length + 1) := by
  simp [rowAfter, cellsAfter_nil, recursiveDistance, List.range_eq_range', List.range'_succ]

/-- One pass over the second text turns the cells of a row into those of the next. -/
theorem nextCells_cellsAfter (a : Char) (done seen bs : List Char) :
    nextCells a (recursiveDistance done seen) (recursiveDistance (a :: done) seen) bs
      (cellsAfter done seen bs) = cellsAfter (a :: done) seen bs := by
  induction bs generalizing seen with
  | nil => rfl
  | cons b bs ih =>
    simp only [cellsAfter, nextCells]
    rw [← recursiveDistance_cons_cons, ih]

theorem nextRow_rowAfter (a : Char) (done bs : List Char) :
    nextRow bs (rowAfter done bs) a = rowAfter (a :: done) bs := by
  have hfirst : recursiveDistance done [] + 1 = recursiveDistance (a :: done) [] := by
    simp [recursiveDistance_nil_right]
  simp only [nextRow, rowAfter]
  rw [hfirst, nextCells_cellsAfter]

theorem foldl_nextRow_rowAfter (as done bs : List Char) :
    as.foldl (nextRow bs) (rowAfter done bs) = rowAfter (as.reverse ++ done) bs := by
  induction as generalizing done with
  | nil => rfl
  | cons a as ih =>
    rw [List.foldl_cons, nextRow_rowAfter, ih, List.reverse_cons, List.append_assoc]
    rfl

theorem getLast?_cellsAfter (done seen bs : List Char) :
    (recursiveDistance done seen :: cellsAfter done seen bs).getLast? =
      some (recursiveDistance done (bs.reverse ++ seen)) := by
  induction bs generalizing seen with
  | nil => rfl
  | cons b bs ih =>
    rw [cellsAfter, List.getLast?_cons_cons, ih, List.reverse_cons, List.append_assoc]
    rfl

/-- The last cell of the last row is the distance of the two texts read from their ends. -/
theorem editDistance_eq_recursiveDistance (as bs : List Char) :
    editDistance as bs = recursiveDistance as.reverse bs.reverse := by
  rw [editDistance, ← rowAfter_nil, foldl_nextRow_rowAfter, rowAfter, getLast?_cellsAfter]
  simp

end Rows

theorem isLeast_editDistance (as bs : List Char) :
    IsLeast {n | Edits n as bs} (editDistance as bs) := by
  rw [editDistance_eq_recursiveDistance]
  constructor
  · have h := (edits_recursiveDistance as.reverse bs.reverse).reverse
    rwa [List.reverse_reverse, List.reverse_reverse] at h
  · intro n hn
    exact hn.reverse.recursiveDistance_le

theorem edits_editDistance (as bs : List Char) : Edits (editDistance as bs) as bs :=
  (isLeast_editDistance as bs).1

theorem Edits.editDistance_le {n : Nat} {as bs : List Char} (h : Edits n as bs) :
    editDistance as bs ≤ n :=
  (isLeast_editDistance as bs).2 h

theorem editDistance_le_max (as bs : List Char) :
    editDistance as bs ≤ max as.length bs.length := by
  have h := recursiveDistance_le_max as.reverse bs.reverse
  rwa [List.length_reverse, List.length_reverse, ← editDistance_eq_recursiveDistance] at h

theorem editDistance_eq_zero_iff {as bs : List Char} : editDistance as bs = 0 ↔ as = bs := by
  constructor
  · intro h
    apply Edits.zero_iff.mp
    rw [← h]
    exact edits_editDistance as bs
  · intro h
    exact Nat.le_zero.mp (Edits.zero_iff.mpr h).editDistance_le

namespace Similarity

theorem kept_add_editDistance {a b : String} (h : max a.length b.length ≠ 0) :
    (ofNames a b).kept + editDistance a.toList b.toList = (ofNames a b).total := by
  have hle := editDistance_le_max a.toList b.toList
  rw [String.length_toList, String.length_toList] at hle
  simp only [ofNames, if_neg h]
  omega

theorem kept_eq_total_iff (a b : String) :
    (ofNames a b).kept = (ofNames a b).total ↔ a = b := by
  by_cases hempty : max a.length b.length = 0
  · have ha : a = "" := String.length_eq_zero_iff.mp (by omega)
    have hb : b = "" := String.length_eq_zero_iff.mp (by omega)
    simp [ofNames, ha, hb]
  · have hadd := kept_add_editDistance hempty
    rw [← String.toList_inj, ← editDistance_eq_zero_iff]
    omega

end Similarity

/-- The distance of two names is the least number of edits that turn one into the other. So it is
symmetric, zero for equal names only, at most the sum of two distances on the way, and at most the
length of the longer name. The similarity is then a share of that length, and the whole of it for
equal names only. -/
theorem editDistance_counts_fewest_edits (a b c : String) :
    let distance (s t : String) := editDistance s.toList t.toList
    let similarity := Similarity.ofNames a b
    IsLeast {n | Edits n a.toList b.toList} (distance a b) ∧
      distance a b = distance b a ∧
      (distance a b = 0 ↔ a = b) ∧
      distance a c ≤ distance a b + distance b c ∧
      distance a b ≤ max a.length b.length ∧
      (max a.length b.length ≠ 0 → similarity.kept + distance a b = similarity.total) ∧
      (similarity.kept = similarity.total ↔ a = b) := by
  intro distance similarity
  have hsymm (s t : String) : distance s t ≤ distance t s :=
    (edits_editDistance t.toList s.toList).symm.editDistance_le
  refine ⟨isLeast_editDistance _ _, ?_, ?_, ?_, ?_, ?_, ?_⟩
  · exact Nat.le_antisymm (hsymm a b) (hsymm b a)
  · rw [← String.toList_inj]
    exact editDistance_eq_zero_iff
  · exact ((edits_editDistance a.toList b.toList).trans
      (edits_editDistance b.toList c.toList)).editDistance_le
  · have hle := editDistance_le_max a.toList b.toList
    rwa [String.length_toList, String.length_toList] at hle
  · exact Similarity.kept_add_editDistance
  · exact Similarity.kept_eq_total_iff a b

end StyleVars
