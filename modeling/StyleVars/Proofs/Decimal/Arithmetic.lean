import StyleVars.Proofs.Decimal.Rounding

/-!
# Arithmetic of doubles

Every double that is neither infinite nor no number has a value. Sums, differences, products,
quotients and roots of doubles with values below `2 ^ 53` have values again, on the same side of
every whole number as the exact result; doubles are compared as their values are, and cut off at the
units as these are.
-/

namespace StyleVars

open Float.Model Float.Model.UnpackedFloat

namespace Double

/-- The number that a double is, unless it is infinite or no number. -/
def value? (x : Float) : Option ℚ := valueOf? x.toModel.unpack

section Arithmetic

variable {x y : Float} {p q : ℚ}

/-- A double with a value is a zero, or it has a mantissa and an exponent. -/
theorem value?_cases (h : value? x = some p) :
    (∃ s, x.toModel.unpack = .zero s ∧ p = 0) ∨
      ∃ s m e hm, x.toModel.unpack = .finite s m e hm ∧ Fits m e ∧ p = signed s (m * 2 ^ e) := by
  rw [value?] at h
  cases hx : x.toModel.unpack with
  | zero s =>
    rw [hx] at h
    exact .inl ⟨s, rfl, (Option.some.inj h).symm⟩
  | finite s m e hm =>
    rw [hx] at h
    exact .inr ⟨s, m, e, hm, rfl, fits_of_unpack hx, (Option.some.inj h).symm⟩
  | infinity s =>
    rw [hx] at h
    cases h
  | notANumber =>
    rw [hx] at h
    cases h

theorem value?_pack_finite {m : ℕ} {e : ℤ} (h : Fits m e) (s : Sign) (hm : 0 < m) :
    valueOf? (Float.Model.pack (.finite s m e hm)).unpack = some (signed s (m * 2 ^ e)) := by
  rw [unpack_pack h]
  rfl

theorem decreaseExponent_mul_zpow (m : ℕ) {e t : ℤ} (h : t ≤ e) :
    ((decreaseExponent m e t).1 : ℚ) * 2 ^ t = m * 2 ^ e := by
  have hshift := shiftLeft_mul_zpow m (e - t).toNat e
  have ht : e - (e - t).toNat = t := by omega
  rwa [ht] at hshift

theorem apply_mul_zpow (s : Sign) (m : ℕ) {e t : ℤ} (h : t ≤ e) :
    ((s.apply (decreaseExponent m e t).1 : ℤ) : ℚ) * 2 ^ t = signed s (m * 2 ^ e) := by
  rw [← decreaseExponent_mul_zpow m h]
  cases s with
  | positive => simp [Sign.apply, signed]
  | negative => simp [Sign.apply, signed]

/-- Addition rounds the sum. -/
theorem exists_value?_add (hx : value? x = some p) (hy : value? y = some q)
    (h : |p + q| < 2 ^ 53) : ∃ r, value? (x + y) = some r ∧ Between (p + q) r := by
  have hadd : value? (x + y) = valueOf? (Float.Model.pack
    (UnpackedFloat.add Format.binary64 x.toModel.unpack y.toModel.unpack)).unpack := rfl
  rw [hadd]
  rcases value?_cases hx with ⟨s, hux, rfl⟩ | ⟨s, m, e, hm, hux, hfx, rfl⟩ <;>
    rcases value?_cases hy with ⟨s', huy, rfl⟩ | ⟨s', m', e', hm', huy, hfy, rfl⟩ <;>
      rw [hux, huy]
  · refine ⟨0, ?_, by simpa using Between.refl 0⟩
    cases s <;> cases s' <;> rfl
  · rw [zero_add]
    exact ⟨_, value?_pack_finite hfy s' hm', .refl _⟩
  · rw [add_zero]
    exact ⟨_, value?_pack_finite hfx s hm, .refl _⟩
  · have hvalue : ((s.apply (decreaseExponent m e (min e e')).1 +
        s'.apply (decreaseExponent m' e' (min e e')).1 : ℤ) : ℚ) * 2 ^ min e e' =
          signed s (m * 2 ^ e) + signed s' (m' * 2 ^ e') := by
      rw [Int.cast_add, add_mul, apply_mul_zpow s m (min_le_left e e'),
        apply_mul_zpow s' m' (min_le_right e e')]
    rw [← hvalue] at h ⊢
    exact exists_valueOf?_normalize _ _ h

/-- Subtraction rounds the difference. -/
theorem exists_value?_sub (hx : value? x = some p) (hy : value? y = some q)
    (h : |p - q| < 2 ^ 53) : ∃ r, value? (x - y) = some r ∧ Between (p - q) r := by
  have hsub : value? (x - y) = valueOf? (Float.Model.pack
    (UnpackedFloat.sub Format.binary64 x.toModel.unpack y.toModel.unpack)).unpack := rfl
  rw [hsub]
  rcases value?_cases hx with ⟨s, hux, rfl⟩ | ⟨s, m, e, hm, hux, hfx, rfl⟩ <;>
    rcases value?_cases hy with ⟨s', huy, rfl⟩ | ⟨s', m', e', hm', huy, hfy, rfl⟩ <;>
      rw [hux, huy]
  · refine ⟨0, ?_, by simpa using Between.refl 0⟩
    cases s <;> cases s' <;> rfl
  · rw [zero_sub]
    refine ⟨_, value?_pack_finite hfy (-s') hm', ?_⟩
    cases s' <;> simpa [signed] using Between.refl _
  · rw [sub_zero]
    exact ⟨_, value?_pack_finite hfx s hm, .refl _⟩
  · have hvalue : ((s.apply (decreaseExponent m e (min e e')).1 -
        s'.apply (decreaseExponent m' e' (min e e')).1 : ℤ) : ℚ) * 2 ^ min e e' =
          signed s (m * 2 ^ e) - signed s' (m' * 2 ^ e') := by
      rw [Int.cast_sub, sub_mul, apply_mul_zpow s m (min_le_left e e'),
        apply_mul_zpow s' m' (min_le_right e e')]
    rw [← hvalue] at h ⊢
    exact exists_valueOf?_normalize _ _ h

theorem signed_mul (s s' : Sign) (a b : ℚ) :
    signed (s * s') (a * b) = signed s a * signed s' b := by
  cases s <;> cases s'
  · exact (neg_mul_neg a b).symm
  · exact (neg_mul a b).symm
  · exact (mul_neg a b).symm
  · rfl

theorem signed_div (s s' : Sign) (a b : ℚ) :
    signed (s / s') (a / b) = signed s a / signed s' b := by
  cases s <;> cases s'
  · exact (neg_div_neg_eq a b).symm
  · exact neg_div' b a
  · exact (div_neg a).symm
  · rfl

theorem abs_signed {a : ℚ} (ha : 0 ≤ a) (s : Sign) : |signed s a| = a := by
  cases s with
  | positive => exact abs_of_nonneg ha
  | negative => exact (abs_neg a).trans (abs_of_nonneg ha)

theorem Fits.ready_mul {m m' : ℕ} {e e' : ℤ} (h : Fits m e) (h' : Fits m' e') (hm : 0 < m)
    (hm' : 0 < m') : Ready (m * m') (e + e') := by
  rcases h.full with hfull | hleast
  · exact .inl (hfull.trans (Nat.le_mul_of_pos_right m hm'))
  · rcases h'.full with hfull | hleast'
    · exact .inl (hfull.trans (Nat.le_mul_of_pos_left m' hm))
    · exact .inr (by omega)

/-- Multiplication rounds the product. -/
theorem exists_value?_mul (hx : value? x = some p) (hy : value? y = some q)
    (h : |p * q| < 2 ^ 53) : ∃ r, value? (x * y) = some r ∧ Between (p * q) r := by
  have hmul : value? (x * y) = valueOf? (Float.Model.pack
    (UnpackedFloat.mul Format.binary64 x.toModel.unpack y.toModel.unpack)).unpack := rfl
  rw [hmul]
  rcases value?_cases hx with ⟨s, hux, rfl⟩ | ⟨s, m, e, hm, hux, hfx, rfl⟩ <;>
    rcases value?_cases hy with ⟨s', huy, rfl⟩ | ⟨s', m', e', hm', huy, hfy, rfl⟩ <;>
      rw [hux, huy]
  · rw [zero_mul]
    exact ⟨0, congrArg valueOf? (unpack_pack_zero _), .refl 0⟩
  · rw [zero_mul]
    exact ⟨0, congrArg valueOf? (unpack_pack_zero _), .refl 0⟩
  · rw [mul_zero]
    exact ⟨0, congrArg valueOf? (unpack_pack_zero _), .refl 0⟩
  · have hvalue : ((m * m' : ℕ) : ℚ) * 2 ^ (e + e') = m * 2 ^ e * (m' * 2 ^ e') := by
      rw [zpow_add₀ (by norm_num), Nat.cast_mul]
      ring
    rw [← signed_mul, ← hvalue] at h ⊢
    rw [abs_signed (by positivity)] at h
    obtain ⟨r, hr, hrounds⟩ := exists_valueOf?_roundWithAccuracy (s * s') (reads_exact _ _)
      (hfx.ready_mul hfy hm hm') h
    exact ⟨_, hr, (hrounds.between h).signed _⟩

theorem accuracyOfFraction_eq (rest : ℕ) {b : ℕ} (hb : (0 : ℚ) < b) :
    accuracyOfFraction rest b = accuracyOf (rest / b) := by
  have hzero : (rest : ℚ) / b = 0 ↔ rest = 0 := by
    rw [div_eq_zero_iff, or_iff_left hb.ne', Nat.cast_eq_zero]
  have hhalf : compare (2 * rest) b = compare ((rest : ℚ) / b) (1 / 2) := by
    have hscaled : (rest : ℚ) / b * (2 * b) = (2 * rest : ℕ) := by
      push_cast
      field_simp
    have hmiddle : 1 / 2 * (2 * (b : ℚ)) = b := by ring
    rw [← cmp_eq_compare (_ / _), ← cmp_mul_pos_right (mul_pos two_pos hb), hscaled, hmiddle,
      Nat.strictMono_cast.cmp_map_eq, cmp_eq_compare]
  simp only [accuracyOfFraction, accuracyOf, hzero, hhalf]

/-- The quotient of mantissas is cut off where the division of numbers is. -/
theorem reads_div (a : ℕ) {b : ℕ} (hb : 0 < b) (t : ℤ) :
    Reads ((a : ℚ) / b * 2 ^ t)
      (.ofMantissaAndAccuracy (a / b) (accuracyOfFraction (a % b) b)) t := by
  have hpos : (0 : ℚ) < b := by exact_mod_cast hb
  have hquotient : (a : ℚ) / b = (a / b : ℕ) + (a % b : ℕ) / b := by
    rw [add_div' _ _ _ hpos.ne', div_left_inj' hpos.ne']
    exact_mod_cast (Nat.div_add_mod' a b).symm
  have hrest : ((a % b : ℕ) : ℚ) < b := by exact_mod_cast Nat.mod_lt a hb
  rw [hquotient, accuracyOfFraction_eq _ hpos]
  exact reads_add_mul _ t (by positivity) ((div_lt_one hpos).mpr hrest)

theorem ready_divCore {m m' : ℕ} (e e' : ℤ) (hm : 0 < m) (hm' : 0 < m') :
    Ready (divCore Format.binary64 m e m' e').1 (divCore Format.binary64 m e m' e').2.1 := by
  simp only [divCore, targetExponent_binary64, totalExponent]
  generalize hplace : min (e - e') _ = t
  by_cases hleast : t ≤ -1074
  · exact .inr hleast
  · left
    rw [Nat.le_div_iff_mul_le hm', Nat.shiftLeft_eq]
    calc 2 ^ 52 * m' ≤ 2 ^ 52 * 2 ^ (m'.log2 + 1) :=
          Nat.mul_le_mul_left _ Nat.lt_log2_self.le
      _ = 2 ^ (52 + (m'.log2 + 1)) := (Nat.pow_add ..).symm
      _ ≤ 2 ^ (m.log2 + (e - e' - t).toNat) := Nat.pow_le_pow_right (by norm_num) (by omega)
      _ = 2 ^ m.log2 * 2 ^ (e - e' - t).toNat := Nat.pow_add ..
      _ ≤ m * 2 ^ (e - e' - t).toNat := Nat.mul_le_mul_right _ (Nat.log2_self_le hm.ne')

theorem reads_divCore {m m' : ℕ} (e e' : ℤ) (hm' : 0 < m') :
    Reads (m * 2 ^ e / (m' * 2 ^ e'))
      (.ofMantissaAndAccuracy (divCore Format.binary64 m e m' e').1
        (divCore Format.binary64 m e m' e').2.2) (divCore Format.binary64 m e m' e').2.1 := by
  simp only [divCore]
  generalize hplace : min (e - e') _ = t
  have ht : e - e' - (e - e' - t).toNat = t := by omega
  have hshift := shiftLeft_mul_zpow m (e - e' - t).toNat (e - e')
  rw [ht, zpow_sub₀ (by norm_num)] at hshift
  have hvalue : (m : ℚ) * 2 ^ e / (m' * 2 ^ e') =
      (m <<< (e - e' - t).toNat : ℕ) / m' * 2 ^ t := by
    rw [div_mul_eq_mul_div, hshift]
    field_simp
  rw [hvalue]
  exact reads_div _ hm' t

theorem exists_valueOf?_div (s s' : Sign) {m m' : ℕ} {e e' : ℤ} (hm : 0 < m) (hm' : 0 < m')
    (h : (m : ℚ) * 2 ^ e / (m' * 2 ^ e') < 2 ^ 53) :
    ∃ r, valueOf? (Float.Model.pack (UnpackedFloat.div Format.binary64 (.finite s m e hm)
        (.finite s' m' e' hm'))).unpack = some (signed (s / s') r) ∧
      Rounds (m * 2 ^ e / (m' * 2 ^ e')) r :=
  exists_valueOf?_roundWithAccuracy (s / s') (reads_divCore e e' hm') (ready_divCore e e' hm hm') h

/-- Division rounds the quotient. -/
theorem exists_value?_div (hx : value? x = some p) (hy : value? y = some q) (hq : q ≠ 0)
    (h : |p / q| < 2 ^ 53) : ∃ r, value? (x / y) = some r ∧ Between (p / q) r := by
  have hdiv : value? (x / y) = valueOf? (Float.Model.pack
    (UnpackedFloat.div Format.binary64 x.toModel.unpack y.toModel.unpack)).unpack := rfl
  rw [hdiv]
  rcases value?_cases hy with ⟨s', huy, rfl⟩ | ⟨s', m', e', hm', huy, hfy, rfl⟩
  · exact absurd rfl hq
  rcases value?_cases hx with ⟨s, hux, rfl⟩ | ⟨s, m, e, hm, hux, hfx, rfl⟩ <;> rw [hux, huy]
  · rw [zero_div]
    exact ⟨0, congrArg valueOf? (unpack_pack_zero _), .refl 0⟩
  · rw [← signed_div] at h ⊢
    rw [abs_signed (by positivity)] at h
    obtain ⟨r, hr, hrounds⟩ := exists_valueOf?_div s s' hm hm' h
    exact ⟨_, hr, (hrounds.between h).signed _⟩

/-- What numbers that are not negative are rounded to when they are divided. -/
theorem exists_value?_div_of_nonneg (hx : value? x = some p) (hy : value? y = some q) (hp : 0 ≤ p)
    (hq : 0 < q) (h : p / q < 2 ^ 53) : ∃ r, value? (x / y) = some r ∧ Rounds (p / q) r := by
  have hdiv : value? (x / y) = valueOf? (Float.Model.pack
    (UnpackedFloat.div Format.binary64 x.toModel.unpack y.toModel.unpack)).unpack := rfl
  rw [hdiv]
  rcases value?_cases hy with ⟨s', huy, rfl⟩ | ⟨s', m', e', hm', huy, hfy, rfl⟩
  · exact absurd hq (lt_irrefl 0)
  have hpos' : (0 : ℚ) < m' * 2 ^ e' := by positivity
  cases s' with
  | negative => exact absurd hq (neg_neg_of_pos hpos').not_gt
  | positive =>
    rcases value?_cases hx with ⟨s, hux, rfl⟩ | ⟨s, m, e, hm, hux, hfx, rfl⟩ <;> rw [hux, huy]
    · rw [zero_div]
      exact ⟨0, congrArg valueOf? (unpack_pack_zero _), rounds_zero⟩
    · have hpos : (0 : ℚ) < m * 2 ^ e := by positivity
      cases s with
      | negative => exact absurd hp (neg_neg_of_pos hpos).not_ge
      | positive => exact exists_valueOf?_div .positive .positive hm hm' h

theorem ready_sqrtCore {m : ℕ} (e : ℤ) (hm : 0 < m) :
    Ready (sqrtCore Format.binary64 m e).1 (sqrtCore Format.binary64 m e).2.1 := by
  have hhalf (n : ℤ) : n.ediv 2 = n / 2 := rfl
  simp only [sqrtCore, targetExponent_binary64, totalExponent, hhalf]
  generalize hplace : min (e / 2) _ = t
  by_cases hleast : t ≤ -1074
  · exact .inr hleast
  · left
    rw [Nat.le_sqrt, Nat.shiftLeft_eq, ← Nat.pow_add]
    calc 2 ^ (52 + 52) ≤ 2 ^ (m.log2 + (e - 2 * t).toNat) :=
          Nat.pow_le_pow_right (by norm_num) (by omega)
      _ = 2 ^ m.log2 * 2 ^ (e - 2 * t).toNat := Nat.pow_add ..
      _ ≤ m * 2 ^ (e - 2 * t).toNat := Nat.mul_le_mul_right _ (Nat.log2_self_le hm.ne')

/-- The square of a root that was cut off is at most the number. -/
theorem sqrtCore_mul_zpow_sq_le (m : ℕ) (e : ℤ) :
    ((sqrtCore Format.binary64 m e).1 * 2 ^ (sqrtCore Format.binary64 m e).2.1 : ℚ) ^ 2 ≤
      m * 2 ^ e := by
  have hhalf : e.ediv 2 = e / 2 := rfl
  simp only [sqrtCore, hhalf]
  generalize hplace : min (e / 2) _ = t
  have ht : e - (e - 2 * t).toNat = 2 * t := by omega
  have hshift := shiftLeft_mul_zpow m (e - 2 * t).toNat e
  rw [ht] at hshift
  have hroot : (((m <<< (e - 2 * t).toNat).sqrt : ℕ) : ℚ) ^ 2 ≤ (m <<< (e - 2 * t).toNat : ℕ) := by
    exact_mod_cast Nat.sqrt_le' _
  have hsquare : ((2 : ℚ) ^ t) ^ 2 = 2 ^ (2 * t) := by
    rw [← zpow_natCast, ← zpow_mul, mul_comm]
    rfl
  rw [← hshift, mul_pow, hsquare]
  exact mul_le_mul_of_nonneg_right hroot (two_zpow_pos _).le

/-- A root has a value that is not negative. -/
theorem exists_value?_sqrt (hx : value? x = some p) (hp : 0 ≤ p) (h : p < 2 ^ 53) :
    ∃ r, value? x.sqrt = some r ∧ 0 ≤ r ∧ r ≤ 2 ^ 53 := by
  have hsqrt : value? x.sqrt = valueOf? (Float.Model.pack
    (UnpackedFloat.sqrt Format.binary64 x.toModel.unpack)).unpack := rfl
  rw [hsqrt]
  rcases value?_cases hx with ⟨s, hux, rfl⟩ | ⟨s, m, e, hm, hux, hfx, rfl⟩ <;> rw [hux]
  · exact ⟨0, congrArg valueOf? (unpack_pack_zero _), le_rfl, by norm_num⟩
  · have hpos : (0 : ℚ) < m * 2 ^ e := by positivity
    cases s with
    | negative => exact absurd hp (not_le.mpr (neg_neg_of_pos hpos))
    | positive =>
      have hready := ready_sqrtCore e hm
      have hsquare := sqrtCore_mul_zpow_sq_le m e
      simp only [UnpackedFloat.sqrt]
      generalize sqrtCore Format.binary64 m e = core at *
      obtain ⟨root, t, acc⟩ := core
      dsimp only at hready hsquare ⊢
      obtain ⟨v, hreads⟩ := exists_reads root acc t
      have hroot : (root : ℚ) * 2 ^ t < 2 ^ 27 := by
        apply lt_of_pow_lt_pow_left₀ 2 (by norm_num)
        exact (hsquare.trans_lt h).trans (by norm_num)
      have ht : t ≤ 0 := by
        by_contra hplace
        have hfull : 2 ^ 52 ≤ root := hready.resolve_right (by omega)
        have hpow : (2 : ℚ) ^ (0 : ℤ) ≤ 2 ^ t := zpow_le_zpow_right₀ (by norm_num) (by omega)
        have hlarge : (2 ^ 52 : ℚ) ≤ root := by exact_mod_cast hfull
        rw [zpow_zero] at hpow
        nlinarith
      have hone : (2 : ℚ) ^ t ≤ 2 ^ (0 : ℤ) := zpow_le_zpow_right₀ (by norm_num) ht
      have hlt : v < 2 ^ 53 := by
        have hnext := hreads.lt
        rw [mantissa_ofMantissaAndAccuracy] at hnext
        rw [zpow_zero] at hone
        linarith
      obtain ⟨r, hr, hrounds⟩ := exists_valueOf?_roundWithAccuracy .positive hreads hready hlt
      have hbetween := hrounds.between hlt
      refine ⟨r, hr, ?_, ?_⟩
      · exact_mod_cast hbetween.le_of_ge (n := 0) (by exact_mod_cast hreads.nonneg)
      · exact_mod_cast hbetween.le_of_le (n := 2 ^ 53) (by exact_mod_cast hlt.le)

theorem Between.eq_of_nat {n : ℕ} {r : ℚ} (h : Between n r) : r = n :=
  le_antisymm (h.le_of_le le_rfl) (h.le_of_ge le_rfl)

theorem value?_toFloat {n : ℕ} (hn : n < 2 ^ 53) : value? n.toUInt64.toFloat = some (n : ℚ) := by
  have hsame : n.toUInt64.toNat = n := UInt64.toNat_ofNat_of_lt (hn.trans (by decide))
  have hvalue : ((n : ℤ) : ℚ) * 2 ^ (0 : ℤ) = n := by simp
  obtain ⟨r, hr, hbetween⟩ := exists_valueOf?_normalize n 0 (by
    rw [hvalue, abs_of_nonneg (by positivity)]
    exact_mod_cast hn)
  rw [hvalue] at hbetween
  rw [← hbetween.eq_of_nat, ← hr]
  have hread : value? n.toUInt64.toFloat = valueOf? (Float.Model.pack
    (UnpackedFloat.normalize Format.binary64 n.toUInt64.toNat 0 .positive)).unpack := rfl
  rw [hread, hsame]

/-- Whole numbers below `2 ^ 53` are doubles. -/
theorem value?_ofNat {n : ℕ} (hn : n < 2 ^ 53) : value? (Float.ofNat n) = some (n : ℚ) := by
  have hofNat : Float.ofNat n = n.toUInt64.toFloat * Float.ofBits 4607182418800017408 :=
    dif_pos ⟨hn, by norm_num⟩
  have hone : value? (Float.ofBits 4607182418800017408) = some 1 := by decide +kernel
  obtain ⟨r, hr, hbetween⟩ := exists_value?_mul (value?_toFloat hn) hone (by
    rw [mul_one, abs_of_nonneg (by positivity)]
    exact_mod_cast hn)
  rw [mul_one] at hbetween
  rw [hofNat, hr, hbetween.eq_of_nat]

/-- Cutting a double off at the units. -/
theorem toNat_toUInt64 (hx : value? x = some p) (hp : 0 ≤ p) (h : p < 2 ^ 53) :
    x.toUInt64.toNat = ⌊p⌋₊ := by
  have hcut : x.toUInt64 =
    UInt64.ofNatClamp (toInt 0 (UInt64.size - 1) x.toModel.unpack).toNat := rfl
  rw [hcut]
  rcases value?_cases hx with ⟨s, hux, rfl⟩ | ⟨s, m, e, hm, hux, hfx, rfl⟩ <;> rw [hux]
  · rw [Nat.floor_zero]
    rfl
  · have hpos : (0 : ℚ) < m * 2 ^ e := by positivity
    cases s with
    | negative => exact absurd hp (not_le.mpr (neg_neg_of_pos hpos))
    | positive =>
      simp only [toInt, roundToInt, decreaseExponent, shiftToExponent, sub_zero, Sign.apply,
        Int.toNat_natCast, signed] at h ⊢
      have hreads := (reads_exact (m <<< e.toNat) (e - e.toNat)).shiftRight
        (0 - (e - e.toNat)).toNat
      have hunits : e - e.toNat + (0 - (e - e.toNat)).toNat = 0 := by omega
      rw [shiftLeft_mul_zpow, hunits] at hreads
      obtain ⟨hle, hlt, -⟩ := hreads
      generalize (ExtendedMantissa.ofMantissaAndAccuracy (m <<< e.toNat) .exact >>>
        (0 - (e - e.toNat)).toNat).mantissa = units at hle hlt ⊢
      rw [zpow_zero, mul_one] at hle hlt
      have hsmall : units < UInt64.size := by
        have hunits : units < 2 ^ 53 := by exact_mod_cast hle.trans_lt h
        exact hunits.trans (by decide)
      rw [UInt64.ofNatClamp, dif_pos hsmall, UInt64.toNat_ofNatLT]
      exact ((Nat.floor_eq_iff hpos.le).mpr ⟨hle, hlt⟩).symm

end Arithmetic

section Order

variable {x y : Float} {p q : ℚ} {m m' : ℕ} {e e' : ℤ}

theorem Fits.mul_zpow_lt (h : Fits m e) (h' : Fits m' e') (he : e < e') :
    (m : ℚ) * 2 ^ e < m' * 2 ^ e' := by
  have hm : (m : ℚ) < (2 ^ 53 : ℕ) := by exact_mod_cast h.lt
  have hm' : ((2 ^ 52 : ℕ) : ℚ) ≤ m' := by
    have hfull : 2 ^ 52 ≤ m' := h'.full.resolve_right (by have := h.least; omega)
    exact_mod_cast hfull
  calc (m : ℚ) * 2 ^ e < (2 ^ 53 : ℕ) * 2 ^ e := mul_lt_mul_of_pos_right hm (two_zpow_pos e)
    _ = 2 ^ (53 + e) := (two_zpow_add 53 e).symm
    _ ≤ 2 ^ (52 + e') := zpow_le_zpow_right₀ (by norm_num) (by omega)
    _ = (2 ^ 52 : ℕ) * 2 ^ e' := two_zpow_add 52 e'
    _ ≤ m' * 2 ^ e' := mul_le_mul_of_nonneg_right hm' (two_zpow_pos e').le

/-- Exponents are compared first and mantissas second. -/
theorem Fits.compare_eq (h : Fits m e) (h' : Fits m' e') :
    (compare e e').then (compare m m') = compare ((m : ℚ) * 2 ^ e) (m' * 2 ^ e') := by
  rcases lt_trichotomy e e' with he | rfl | he
  · rw [compare_lt_iff_lt.mpr he, compare_lt_iff_lt.mpr (h.mul_zpow_lt h' he)]
    rfl
  · rw [compare_eq_iff_eq.mpr rfl, ← cmp_eq_compare (_ * _), cmp_mul_pos_right (two_zpow_pos e),
      Nat.strictMono_cast.cmp_map_eq, cmp_eq_compare]
    rfl
  · rw [compare_gt_iff_gt.mpr he, compare_gt_iff_gt.mpr (h'.mul_zpow_lt h he)]
    rfl

/-- Doubles are compared as the numbers that they are. -/
theorem compare_unpack (hx : value? x = some p) (hy : value? y = some q) :
    UnpackedFloat.compare x.toModel.unpack y.toModel.unpack = some (compare p q) := by
  rcases value?_cases hx with ⟨s, hux, rfl⟩ | ⟨s, m, e, hm, hux, hfx, rfl⟩ <;>
    rcases value?_cases hy with ⟨s', huy, rfl⟩ | ⟨s', m', e', hm', huy, hfy, rfl⟩ <;>
      rw [hux, huy]
  · rw [compare_eq_iff_eq.mpr rfl]
    rfl
  · have hpos : (0 : ℚ) < m' * 2 ^ e' := by positivity
    cases s' with
    | positive => exact congrArg some (compare_lt_iff_lt.mpr hpos).symm
    | negative => exact congrArg some (compare_gt_iff_gt.mpr (neg_neg_of_pos hpos)).symm
  · have hpos : (0 : ℚ) < m * 2 ^ e := by positivity
    cases s with
    | positive => exact congrArg some (compare_gt_iff_gt.mpr hpos).symm
    | negative => exact congrArg some (compare_lt_iff_lt.mpr (neg_neg_of_pos hpos)).symm
  · have hpos : (0 : ℚ) < m * 2 ^ e := by positivity
    have hpos' : (0 : ℚ) < m' * 2 ^ e' := by positivity
    cases s <;> cases s'
    · apply congrArg some
      rw [hfx.compare_eq hfy, ← cmp_eq_compare, ← cmp_eq_compare, cmp_swap]
      exact (StrictAnti.cmp_map_eq (fun _ _ => neg_lt_neg) _ _).symm
    · exact congrArg some (compare_lt_iff_lt.mpr ((neg_neg_of_pos hpos).trans hpos')).symm
    · exact congrArg some (compare_gt_iff_gt.mpr ((neg_neg_of_pos hpos').trans hpos)).symm
    · exact congrArg some (hfx.compare_eq hfy)

theorem lt_iff_value (hx : value? x = some p) (hy : value? y = some q) : x < y ↔ p < q := by
  have hlt : x < y ↔ UnpackedFloat.compare x.toModel.unpack y.toModel.unpack = some .lt := by
    change decide ((UnpackedFloat.compare x.toModel.unpack y.toModel.unpack == some .lt) = true) =
      true ↔ _
    rw [decide_eq_true_eq, beq_iff_eq]
  rw [hlt, compare_unpack hx hy, Option.some_inj]
  exact compare_lt_iff_lt

end Order

section Interval

variable {x y : Float} {a b c d k : ℕ}

/-- The value of a double lies between two whole numbers. -/
def Within (a b : ℕ) (x : Float) : Prop := ∃ p, value? x = some p ∧ a ≤ p ∧ p ≤ b

theorem within_of_value? (h : value? x = some (k : ℚ)) : Within k k x := ⟨k, h, le_rfl, le_rfl⟩

/-- What an operation rounds stays between the whole numbers between which its exact result lies. -/
theorem within_of_rounds {v : ℚ} (hlow : a ≤ v) (hhigh : v ≤ b) (hb : b < 2 ^ 53)
    (h : |v| < 2 ^ 53 → ∃ r, value? x = some r ∧ Between v r) : Within a b x := by
  have hlt : |v| < 2 ^ 53 := by
    rw [abs_of_nonneg ((Nat.cast_nonneg a).trans hlow)]
    exact hhigh.trans_lt (by exact_mod_cast hb)
  obtain ⟨r, hr, hbetween⟩ := h hlt
  exact ⟨r, hr, hbetween.le_of_ge hlow, hbetween.le_of_le hhigh⟩

theorem Within.add (hx : Within a b x) (hy : Within c d y) (h : b + d < 2 ^ 53) :
    Within (a + c) (b + d) (x + y) := by
  obtain ⟨p, hp, hap, hpb⟩ := hx
  obtain ⟨q, hq, hcq, hqd⟩ := hy
  refine within_of_rounds ?_ ?_ h (exists_value?_add hp hq)
  · push_cast
    exact add_le_add hap hcq
  · push_cast
    exact add_le_add hpb hqd

theorem Within.mul (hx : Within a b x) (hy : Within c d y) (h : b * d < 2 ^ 53) :
    Within (a * c) (b * d) (x * y) := by
  obtain ⟨p, hp, hap, hpb⟩ := hx
  obtain ⟨q, hq, hcq, hqd⟩ := hy
  refine within_of_rounds ?_ ?_ h (exists_value?_mul hp hq)
  · push_cast
    exact mul_le_mul hap hcq (Nat.cast_nonneg c) ((Nat.cast_nonneg a).trans hap)
  · push_cast
    exact mul_le_mul hpb hqd ((Nat.cast_nonneg c).trans hcq) (Nat.cast_nonneg b)

theorem Within.div (hx : Within (a * k) (b * k) x) (hy : value? y = some (k : ℚ)) (hk : 0 < k)
    (h : b < 2 ^ 53) : Within a b (x / y) := by
  obtain ⟨p, hp, hap, hpb⟩ := hx
  have hpos : (0 : ℚ) < k := by exact_mod_cast hk
  refine within_of_rounds ?_ ?_ h (exists_value?_div hp hy hpos.ne')
  · rw [le_div_iff₀ hpos]
    exact_mod_cast hap
  · rw [div_le_iff₀ hpos]
    exact_mod_cast hpb

theorem Within.toNat_toUInt64 (h : Within a b x) (hb : b < 2 ^ 53) :
    a ≤ x.toUInt64.toNat ∧ x.toUInt64.toNat ≤ b := by
  obtain ⟨p, hp, hap, hpb⟩ := h
  have hp0 : 0 ≤ p := (Nat.cast_nonneg a).trans hap
  rw [Double.toNat_toUInt64 hp hp0 (hpb.trans_lt (by exact_mod_cast hb))]
  exact ⟨Nat.le_floor hap, Nat.floor_le_of_le hpb⟩

end Interval

end Double

end StyleVars
