import StyleVars.Proofs.Decimal.Arithmetic
import StyleVars.Proofs.Naming.Similar

/-!
# Similarities as doubles

Names can also be compared by doubles, each the quotient of what is kept of a name and its length.
Quotients are rounded. But fractions whose totals multiply to less than `2 ^ 53` are equal or
further apart than rounding goes, and equal ones are rounded to one double. So for names that are
not too long, the quotients find the same similar names as the fractions do.
-/

namespace StyleVars

open Double

theorem Double.Rounds.abs_sub_le_of_le_one {v r : ℚ} (h : Rounds v r) (hv : v ≤ 1) :
    |r - v| ≤ 1 / 2 ^ 54 := by
  rcases hv.lt_or_eq with hlt | rfl
  · have hle := h.abs_sub_le (k := -53) (by norm_num) (by simpa using hlt)
    exact hle.trans (by norm_num)
  · have hone : r = (1 : ℕ) := by
      apply Between.eq_of_nat
      exact_mod_cast h.between (by norm_num)
    rw [hone]
    norm_num

namespace Similarity

variable {s t : Similarity}

/-- There is a total, and no more than that is kept. -/
structure Proper (s : Similarity) : Prop where
  total_pos : 0 < s.total
  kept_le : s.kept ≤ s.total

theorem proper_ofNames (a b : String) : (ofNames a b).Proper := by
  refine ⟨total_ofNames_pos a b, ?_⟩
  simp only [ofNames]
  split
  · exact le_rfl
  · exact Nat.sub_le _ _

theorem total_ofNames_le {a b : String} {n : ℕ} (hn : 0 < n) (ha : a.length ≤ n)
    (hb : b.length ≤ n) : (ofNames a b).total ≤ n := by
  simp only [ofNames]
  split
  · exact hn
  · exact max_le ha hb

theorem Proper.share_le_one (h : s.Proper) : s.share ≤ 1 := by
  rw [share, div_le_one (by exact_mod_cast h.total_pos)]
  exact_mod_cast h.kept_le

theorem Proper.exists_rounds (h : s.Proper) (hlt : s.total < 2 ^ 53) :
    ∃ r, value? s.toFloat = some r ∧ Rounds s.share r := by
  apply exists_value?_div_of_nonneg (value?_ofNat (h.kept_le.trans_lt hlt)) (value?_ofNat hlt)
  · exact Nat.cast_nonneg _
  · exact_mod_cast h.total_pos
  · exact h.share_le_one.trans_lt (by norm_num)

/-- Different fractions are apart by at least one part of the product of their totals. -/
theorem share_add_lt (hs : s.Proper) (ht : t.Proper) (hlt : s.total * t.total < 2 ^ 53)
    (h : t.share < s.share) : t.share + 1 / 2 ^ 53 < s.share := by
  have hspos : (0 : ℚ) < s.total := by exact_mod_cast hs.total_pos
  have htpos : (0 : ℚ) < t.total := by exact_mod_cast ht.total_pos
  have hgap : (t.kept : ℚ) * s.total + 1 ≤ s.kept * t.total := by
    rw [share, share, div_lt_div_iff₀ htpos hspos] at h
    exact_mod_cast h
  have hproduct : (s.total : ℚ) * t.total < 2 ^ 53 := by exact_mod_cast hlt
  rw [share, share, ← sub_pos]
  have hdifference : (s.kept : ℚ) / s.total - (t.kept / t.total + 1 / 2 ^ 53) =
      (s.kept * t.total - t.kept * s.total - s.total * t.total / 2 ^ 53) / (s.total * t.total) := by
    field_simp
    ring
  rw [hdifference]
  apply div_pos _ (mul_pos hspos htpos)
  have hpart : (s.total : ℚ) * t.total / 2 ^ 53 < 1 := by
    rw [div_lt_one (by norm_num)]
    exact hproduct
  linarith

theorem toFloat_lt_iff (hs : s.Proper) (ht : t.Proper) (hlt : s.total * t.total < 2 ^ 53) :
    t.toFloat < s.toFloat ↔ t.share < s.share := by
  obtain ⟨p, hp, hps⟩ := hs.exists_rounds
    ((Nat.le_mul_of_pos_right _ ht.total_pos).trans_lt hlt)
  obtain ⟨q, hq, hqt⟩ := ht.exists_rounds
    ((Nat.le_mul_of_pos_left _ hs.total_pos).trans_lt hlt)
  have hpnear := abs_le.mp (hps.abs_sub_le_of_le_one hs.share_le_one)
  have hqnear := abs_le.mp (hqt.abs_sub_le_of_le_one ht.share_le_one)
  rw [lt_iff_value hq hp]
  rcases lt_trichotomy t.share s.share with hless | hsame | hmore
  · have hgap := share_add_lt hs ht hlt hless
    refine iff_of_true ?_ hless
    linarith
  · rw [hsame] at hqt
    rw [hqt.unique hps, hsame, lt_self_iff_false, lt_self_iff_false]
  · have hgap := share_add_lt ht hs (by rwa [Nat.mul_comm]) hmore
    refine iff_of_false (not_lt.mpr ?_) hmore.not_gt
    linarith

theorem exceeds_iff_toFloat_lt (hs : s.Proper) (ht : t.Proper)
    (hlt : s.total * t.total < 2 ^ 53) : s.exceeds t ↔ t.toFloat < s.toFloat := by
  rw [exceeds_iff hs.total_pos ht.total_pos, toFloat_lt_iff hs ht hlt]

theorem isClose_iff_half_lt (hs : s.Proper) (hlt : s.total * 2 < 2 ^ 53) :
    s.isClose ↔ 0.5 < s.toFloat := by
  have hhalf : (⟨1, 2⟩ : Similarity).Proper := ⟨by norm_num, by norm_num⟩
  have hvalue : (⟨1, 2⟩ : Similarity).toFloat = 0.5 := by decide +kernel
  rw [isClose_iff hs.total_pos, ← hvalue, toFloat_lt_iff hs hhalf hlt]
  norm_num [share]

section Names

variable {name a b : String} {n : ℕ}

theorem isClose_ofNames_eq (hpos : 0 < n) (hn : n * n < 2 ^ 53) (hname : name.length ≤ n)
    (ha : a.length ≤ n) : (ofNames name a).isClose = decide (0.5 < (ofNames name a).toFloat) := by
  have htotal := total_ofNames_le hpos hname ha
  rw [Bool.eq_iff_iff, decide_eq_true_iff]
  exact isClose_iff_half_lt (proper_ofNames name a) (by nlinarith)

theorem exceeds_ofNames_eq (hpos : 0 < n) (hn : n * n < 2 ^ 53) (hname : name.length ≤ n)
    (ha : a.length ≤ n) (hb : b.length ≤ n) : (ofNames name a).exceeds (ofNames name b) =
      decide ((ofNames name b).toFloat < (ofNames name a).toFloat) := by
  have htotals := Nat.mul_le_mul (total_ofNames_le hpos hname ha) (total_ofNames_le hpos hname hb)
  rw [Bool.eq_iff_iff, decide_eq_true_iff]
  exact exceeds_iff_toFloat_lt (proper_ofNames name a) (proper_ofNames name b)
    (htotals.trans_lt hn)

end Names

end Similarity

/-- The known names most similar to `name`, by their quotients. -/
def similarNamesByQuotient (name : String) (known : List String) : List String :=
  let quotient k := (Similarity.ofNames name k).toFloat
  let close := known.filter fun k => k != name && decide (0.5 < quotient k)
  let before a b := decide (quotient b < quotient a) ||
    (!decide (quotient a < quotient b) && decide (a ≤ b))
  (close.mergeSort before).take similarLimit

/-- Rounding does not show in what is found for names whose lengths multiply to less than
`2 ^ 53`. -/
theorem similarNames_eq_byQuotient {name : String} {known : List String} {n : ℕ} (hpos : 0 < n)
    (hn : n * n < 2 ^ 53) (hname : name.length ≤ n) (hknown : ∀ k ∈ known, k.length ≤ n) :
    similarNames name known = similarNamesByQuotient name known := by
  have hfilter : (known.filter fun k => k != name && (Similarity.ofNames name k).isClose) =
      known.filter fun k => k != name && decide (0.5 < (Similarity.ofNames name k).toFloat) := by
    apply List.filter_congr
    intro k hk
    rw [Similarity.isClose_ofNames_eq hpos hn hname (hknown k hk)]
  simp only [similarNames, similarNamesByQuotient, hfilter]
  congr 1
  apply mergeSort_congr
  intro a ha b hb
  have ha := hknown a (List.mem_of_mem_filter ha)
  have hb := hknown b (List.mem_of_mem_filter hb)
  simp only [offeredBefore, Similarity.exceeds_ofNames_eq hpos hn hname ha hb,
    Similarity.exceeds_ofNames_eq hpos hn hname hb ha]

end StyleVars
