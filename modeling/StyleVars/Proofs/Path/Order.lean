import StyleVars.Path.Basic

/-!
# The order of paths

Paths are sorted by their components, kind before text. The test that sorting uses is the comparison
under which paths are kept as keys, so it is transitive and total, and a list that is sorted with it
is in order.
-/

namespace StyleVars

open Std

namespace PathComponent

theorem isLE_compare_text (s t : String) : (compare s t).isLE = decide (s ≤ t) := by
  rw [Bool.eq_iff_iff, decide_eq_true_eq]
  exact isLE_compareOfLessAndEq String.le_antisymm String.not_le String.le_total

theorem le_eq_isLE (a b : PathComponent) : a.le b = (compare a b).isLE := by
  have hcompare : compare a b = (compare a.kind b.kind).then (compare a.text b.text) := rfl
  rw [hcompare, le, ← isLE_compare_text]
  rcases Nat.lt_trichotomy a.kind b.kind with hlt | heq | hgt
  · rw [Nat.compare_eq_lt.mpr hlt, decide_eq_true hlt]
    rfl
  · rw [heq, Nat.compare_eq_eq.mpr rfl, beq_self_eq_true, decide_eq_false (Nat.lt_irrefl _)]
    rfl
  · rw [Nat.compare_eq_gt.mpr hgt, decide_eq_false (Nat.lt_asymm hgt),
      beq_eq_false_iff_ne.mpr (Nat.ne_of_gt hgt)]
    rfl

end PathComponent

namespace Path

theorem componentsLe_eq_isLE (as bs : List PathComponent) :
    componentsLe as bs = (compare as bs).isLE := by
  induction as generalizing bs with
  | nil => cases bs <;> rfl
  | cons a as ih =>
    cases bs with
    | nil => rfl
    | cons b bs =>
      have hcompare : compare (a :: as) (b :: bs) = (compare a b).then (compare as bs) :=
        List.compareLex_cons_cons
      rw [hcompare, componentsLe]
      by_cases hab : a = b
      · rw [if_pos hab, ih, hab, ReflOrd.compare_self]
        rfl
      · -- Different components decide the order at once.
        have hne : compare a b ≠ .eq := fun heq => hab (LawfulEqCmp.eq_of_compare heq)
        rw [if_neg hab, PathComponent.le_eq_isLE]
        cases hcase : compare a b with
        | eq => exact absurd hcase hne
        | lt | gt => rfl

theorem le_eq_isLE (p q : Path) : p.le q = (compare p q).isLE :=
  componentsLe_eq_isLE p.components q.components

theorem le_trans {p q r : Path} (h : p.le q) (h' : q.le r) : p.le r := by
  rw [le_eq_isLE] at h h' ⊢
  exact TransCmp.isLE_trans h h'

theorem le_total (p q : Path) : p.le q ∨ q.le p := by
  have hswap : compare q p = (compare p q).swap := OrientedCmp.eq_swap
  rw [le_eq_isLE, le_eq_isLE, hswap]
  cases compare p q with
  | lt => exact .inl rfl
  | eq => exact .inl rfl
  | gt => exact .inr rfl

/-- Files in the order of their paths. -/
theorem pairwise_mergeSort_le (files : List String) :
    (files.mergeSort fun a b => (ofString a).le (ofString b)).Pairwise fun a b =>
      (ofString a).le (ofString b) := by
  apply List.pairwise_mergeSort
  · intro a b c hab hbc
    exact le_trans hab hbc
  · intro a b
    rw [Bool.or_eq_true]
    exact le_total (ofString a) (ofString b)

end Path

end StyleVars
