import Mathlib

/-!
# Rounding of doubles

The result of an operation on doubles is the exact result, rounded to a mantissa of 53 bits. Three
things are needed of rounding here. It passes no whole number: below `2 ^ 53` every whole number is
a double, so what lies between two of them is rounded to something between them. It goes by half of
the last place at most. And what a number is rounded to does not depend on how it was computed. A
number enters rounding as a mantissa with two extra bits, from which everything below the last place
was cut off; cutting off more keeps that description true, and the last mantissa is then put into 64
bits and read back unchanged.
-/

namespace StyleVars

open Float.Model Float.Model.UnpackedFloat

namespace Double

variable {v : ℚ} {em : ExtendedMantissa} {e : ℤ}

theorem two_zpow_pos (e : ℤ) : (0 : ℚ) < 2 ^ e := by positivity

theorem two_zpow_succ (e : ℤ) : (2 : ℚ) ^ (e + 1) = 2 * 2 ^ e := by
  rw [zpow_add_one₀ (by norm_num), mul_comm]

theorem two_zpow_add (k : ℕ) (e : ℤ) : (2 : ℚ) ^ (k + e) = (2 ^ k : ℕ) * 2 ^ e := by
  rw [zpow_add₀ (by norm_num), zpow_natCast, Nat.cast_pow, Nat.cast_ofNat]

theorem mantissa_ofMantissaAndAccuracy (m : ℕ) (acc : Accuracy) :
    (ExtendedMantissa.ofMantissaAndAccuracy m acc).mantissa = m := by
  cases acc with
  | exact => rfl
  | inexact o => cases o <;> rfl

/-- A mantissa with its two extra bits stands for `v`: the mantissa is what is left of `v` when
everything below `2 ^ e` is cut off, one bit says whether that was half of `2 ^ e` or more, and the
other whether it was neither nothing nor just half. -/
structure Reads (v : ℚ) (em : ExtendedMantissa) (e : ℤ) : Prop where
  le : (em.mantissa : ℚ) * 2 ^ e ≤ v
  lt : v < (em.mantissa + 1) * 2 ^ e
  round : em.roundBit = true ↔ (em.mantissa + 1 / 2) * 2 ^ e ≤ v
  sticky : em.stickyBit = false ↔ v = em.mantissa * 2 ^ e ∨ v = (em.mantissa + 1 / 2) * 2 ^ e

/-- The accuracy of a mantissa from which the part `f` of the last place was cut off. -/
def accuracyOf (f : ℚ) : Accuracy := if f = 0 then .exact else .inexact (compare f (1 / 2))

theorem accuracyOf_of_compare {f : ℚ} {half : Ordering} (hf : f ≠ 0)
    (h : compare f (1 / 2) = half) : accuracyOf f = .inexact half := by
  rw [accuracyOf, if_neg hf, h]

theorem bits_accuracyOf (m : ℕ) {f : ℚ} (hf : 0 ≤ f) :
    let em := ExtendedMantissa.ofMantissaAndAccuracy m (accuracyOf f)
    (em.roundBit = true ↔ 1 / 2 ≤ f) ∧ (em.stickyBit = false ↔ f = 0 ∨ f = 1 / 2) := by
  rcases hf.eq_or_lt with rfl | hpos
  · exact ⟨iff_of_false Bool.false_ne_true (by norm_num), iff_of_true rfl (.inl rfl)⟩
  · rcases lt_trichotomy f (1 / 2) with hlt | rfl | hgt
    · rw [accuracyOf_of_compare hpos.ne' (compare_lt_iff_lt.mpr hlt)]
      exact ⟨iff_of_false Bool.false_ne_true hlt.not_ge,
        iff_of_false Bool.false_ne_true.symm (not_or.mpr ⟨hpos.ne', hlt.ne⟩)⟩
    · rw [accuracyOf_of_compare hpos.ne' (compare_eq_iff_eq.mpr rfl)]
      exact ⟨iff_of_true rfl le_rfl, iff_of_true rfl (.inr rfl)⟩
    · rw [accuracyOf_of_compare hpos.ne' (compare_gt_iff_gt.mpr hgt)]
      exact ⟨iff_of_true rfl hgt.le,
        iff_of_false Bool.false_ne_true.symm (not_or.mpr ⟨hpos.ne', hgt.ne'⟩)⟩

theorem reads_add_mul (m : ℕ) (e : ℤ) {f : ℚ} (hf : 0 ≤ f) (hlt : f < 1) :
    Reads ((m + f) * 2 ^ e) (.ofMantissaAndAccuracy m (accuracyOf f)) e := by
  have hpos := two_zpow_pos e
  obtain ⟨hround, hsticky⟩ := bits_accuracyOf m hf
  refine ⟨?_, ?_, ?_, ?_⟩ <;> rw [mantissa_ofMantissaAndAccuracy]
  · rw [mul_le_mul_iff_left₀ hpos]
    linarith
  · rw [mul_lt_mul_iff_left₀ hpos]
    linarith
  · rw [mul_le_mul_iff_left₀ hpos, add_le_add_iff_left]
    exact hround
  · rw [mul_left_inj' hpos.ne', mul_left_inj' hpos.ne', add_eq_left, add_right_inj]
    exact hsticky

theorem reads_exact (m : ℕ) (e : ℤ) : Reads (m * 2 ^ e) (.ofMantissaAndAccuracy m .exact) e := by
  have hreads := reads_add_mul m e le_rfl one_pos
  rwa [add_zero] at hreads

/-- Every mantissa with an accuracy stands for a number. -/
theorem exists_reads (m : ℕ) (acc : Accuracy) (e : ℤ) :
    ∃ v, Reads v (.ofMantissaAndAccuracy m acc) e := by
  cases acc with
  | exact => exact ⟨_, reads_exact m e⟩
  | inexact half =>
    obtain ⟨f, hpos, hlt, hhalf⟩ : ∃ f : ℚ, 0 < f ∧ f < 1 ∧ compare f (1 / 2) = half := by
      cases half with
      | lt => exact ⟨1 / 4, by norm_num, by norm_num, compare_lt_iff_lt.mpr (by norm_num)⟩
      | eq => exact ⟨1 / 2, by norm_num, by norm_num, compare_eq_iff_eq.mpr rfl⟩
      | gt => exact ⟨3 / 4, by norm_num, by norm_num, compare_gt_iff_gt.mpr (by norm_num)⟩
    have hreads := reads_add_mul m e hpos.le hlt
    rw [accuracyOf_of_compare hpos.ne' hhalf] at hreads
    exact ⟨_, hreads⟩

theorem Reads.nonneg (h : Reads v em e) : 0 ≤ v := le_trans (by positivity) h.le

theorem Reads.eq_iff (h : Reads v em e) :
    v = em.mantissa * 2 ^ e ↔ em.roundBit = false ∧ em.stickyBit = false := by
  have hpos := two_zpow_pos e
  constructor
  · intro heq
    refine ⟨?_, h.sticky.mpr (.inl heq)⟩
    rw [← Bool.not_eq_true, h.round, not_le, heq]
    linarith
  · rintro ⟨hround, hsticky⟩
    rw [← Bool.not_eq_true, h.round, not_le] at hround
    exact (h.sticky.mp hsticky).resolve_right hround.ne

theorem Reads.shiftRightOne (h : Reads v em e) : Reads v em.shiftRightOne (e + 1) := by
  have hpos := two_zpow_pos e
  have hle := h.le
  have hlt := h.lt
  have hbits : (em.roundBit || em.stickyBit) = false ↔ v = em.mantissa * 2 ^ e := by
    rw [Bool.or_eq_false_iff, h.eq_iff]
  -- The bit that is shifted out is half of the new last place.
  rcases Nat.even_or_odd' em.mantissa with ⟨n, hn | hn⟩
  · have hshift : em.shiftRightOne = ⟨n, false, em.roundBit || em.stickyBit⟩ := by
      simp only [ExtendedMantissa.shiftRightOne, hn]
      simp
    rw [hn] at hle hlt hbits
    push_cast at hle hlt hbits
    rw [hshift]
    refine ⟨?_, ?_, ?_, ?_⟩ <;> rw [two_zpow_succ]
    · dsimp only
      linarith
    · dsimp only
      linarith
    · simp only [Bool.false_eq_true, false_iff, not_le]
      linarith
    · dsimp only
      rw [hbits]
      constructor
      · intro heq
        exact .inl (by linarith)
      · rintro (heq | heq)
        · linarith
        · linarith
  · have hshift : em.shiftRightOne = ⟨n, true, em.roundBit || em.stickyBit⟩ := by
      simp only [ExtendedMantissa.shiftRightOne, hn]
      congr 1
      · omega
      · simp
    rw [hn] at hle hlt hbits
    push_cast at hle hlt hbits
    rw [hshift]
    refine ⟨?_, ?_, ?_, ?_⟩ <;> rw [two_zpow_succ]
    · dsimp only
      linarith
    · dsimp only
      linarith
    · simp only [true_iff]
      linarith
    · dsimp only
      rw [hbits]
      constructor
      · intro heq
        exact .inr (by linarith)
      · rintro (heq | heq)
        · linarith
        · linarith

theorem Reads.shiftRight (h : Reads v em e) (k : ℕ) : Reads v (em >>> k) (e + k) := by
  induction k with
  | zero => simpa [HShiftRight.hShiftRight, Nat.repeat] using h
  | succ k ih =>
    have hstep := ih.shiftRightOne
    rw [add_assoc] at hstep
    exact_mod_cast hstep

theorem mantissa_le_roundedMantissa (em : ExtendedMantissa) :
    em.mantissa ≤ em.roundedMantissa := by
  obtain ⟨m, round, sticky⟩ := em
  cases round <;> cases sticky <;>
    simp [ExtendedMantissa.roundedMantissa, ExtendedMantissa.accuracy, Accuracy.roundToNearestEven]

theorem roundedMantissa_le (em : ExtendedMantissa) : em.roundedMantissa ≤ em.mantissa + 1 := by
  obtain ⟨m, round, sticky⟩ := em
  cases round <;> cases sticky <;>
    simp [ExtendedMantissa.roundedMantissa, ExtendedMantissa.accuracy, Accuracy.roundToNearestEven]
  omega

theorem roundedMantissa_of_low (hround : em.roundBit = false) :
    em.roundedMantissa = em.mantissa := by
  obtain ⟨m, round, sticky⟩ := em
  subst hround
  cases sticky <;> rfl

theorem roundedMantissa_of_high (hround : em.roundBit = true) (hsticky : em.stickyBit = true) :
    em.roundedMantissa = em.mantissa + 1 := by
  obtain ⟨m, round, sticky⟩ := em
  subst hround hsticky
  rfl

/-- Rounding does not pass a multiple of the last place. -/
theorem Reads.rounded_le (h : Reads v em e) {n : ℕ} (hv : v ≤ n * 2 ^ e) :
    em.roundedMantissa ≤ n := by
  have hpos := two_zpow_pos e
  by_cases hexact : v = em.mantissa * 2 ^ e
  · rw [roundedMantissa_of_low (h.eq_iff.mp hexact).1]
    rw [hexact] at hv
    exact_mod_cast le_of_mul_le_mul_right hv hpos
  · have hlt : (em.mantissa : ℚ) * 2 ^ e < n * 2 ^ e :=
      lt_of_lt_of_le (lt_of_le_of_ne h.le (Ne.symm hexact)) hv
    have hnat : em.mantissa < n := by exact_mod_cast lt_of_mul_lt_mul_right hlt hpos.le
    have hone := roundedMantissa_le em
    omega

theorem Reads.le_rounded (h : Reads v em e) {n : ℕ} (hv : n * 2 ^ e ≤ v) :
    n ≤ em.roundedMantissa := by
  have hlt : (n : ℚ) * 2 ^ e < (em.mantissa + 1 : ℕ) * 2 ^ e := by
    push_cast
    exact lt_of_le_of_lt hv h.lt
  have hnat : n < em.mantissa + 1 := by
    exact_mod_cast lt_of_mul_lt_mul_right hlt (two_zpow_pos e).le
  have hle := mantissa_le_roundedMantissa em
  omega

/-- A number and a last place determine the mantissa and its bits. -/
theorem Reads.unique {em' : ExtendedMantissa} (h : Reads v em e) (h' : Reads v em' e) :
    em = em' := by
  have hle {em em' : ExtendedMantissa} (h : Reads v em e) (h' : Reads v em' e) :
      em.mantissa ≤ em'.mantissa := by
    have hlt := lt_of_mul_lt_mul_right (h.le.trans_lt h'.lt) (two_zpow_pos e).le
    exact Nat.le_of_lt_succ (by exact_mod_cast hlt)
  have hmantissa := (hle h h').antisymm (hle h' h)
  have hround : em.roundBit = em'.roundBit := by
    rw [Bool.eq_iff_iff, h.round, h'.round, hmantissa]
  have hsticky : em.stickyBit = em'.stickyBit := by
    rw [← Bool.not_inj_iff, Bool.eq_iff_iff, Bool.not_eq_true', Bool.not_eq_true', h.sticky,
      h'.sticky, hmantissa]
  cases em
  cases em'
  exact ExtendedMantissa.mk.injEq .. ▸ ⟨hmantissa, hround, hsticky⟩

/-- Rounding goes by half of the last place at most. -/
theorem Reads.abs_rounded_sub_le (h : Reads v em e) :
    |em.roundedMantissa * 2 ^ e - v| ≤ 2 ^ e / 2 := by
  have hle := h.le
  have hlt := h.lt
  rw [abs_le]
  cases hround : em.roundBit with
  | false =>
    have hlow := h.round.not.mp (Bool.not_eq_true _ ▸ hround)
    rw [roundedMantissa_of_low hround]
    constructor <;> linarith
  | true =>
    have hhigh := h.round.mp hround
    cases hsticky : em.stickyBit with
    | true =>
      rw [roundedMantissa_of_high hround hsticky]
      push_cast
      constructor <;> linarith
    | false =>
      have hpos := two_zpow_pos e
      have htie : v = (em.mantissa + 1 / 2) * 2 ^ e :=
        (h.sticky.mp hsticky).resolve_left (by linarith)
      have hlow : (em.mantissa : ℚ) ≤ em.roundedMantissa := by
        exact_mod_cast mantissa_le_roundedMantissa em
      have hhigh : (em.roundedMantissa : ℚ) ≤ em.mantissa + 1 := by
        exact_mod_cast roundedMantissa_le em
      constructor <;> nlinarith

section Shape

variable {m : ℕ}

/-- The mantissa and exponent of a finite double. -/
structure Fits (m : ℕ) (e : ℤ) : Prop where
  lt : m < 2 ^ 53
  least : -1074 ≤ e
  greatest : e ≤ 971
  full : 2 ^ 52 ≤ m ∨ e = -1074

/-- The exponent of the last place that rounding keeps of `m * 2 ^ e`. -/
def lastPlace (m : ℕ) (e : ℤ) : ℤ := max (m.log2 + e - 52) (-1074)

theorem targetExponent_binary64 (total : ℤ) :
    Format.binary64.targetExponent total = max (total - 53) (-1074) := rfl

theorem targetExponent_eq (m : ℕ) (e : ℤ) :
    Format.binary64.targetExponent (totalExponent m e) = lastPlace m e := by
  rw [targetExponent_binary64, totalExponent, lastPlace]
  omega

theorem shiftToTargetExponent_of_lt (hm : m < 2 ^ 53) (he : -1074 ≤ e) :
    shiftToTargetExponent Format.binary64 m e .exact = (⟨m, false, false⟩, e) := by
  have hlog : m.log2 ≤ 52 := by
    by_cases hzero : m = 0
    · simp [hzero]
    · exact Nat.le_of_lt_succ ((Nat.log2_lt hzero).mpr hm)
  have hshift : (Format.binary64.targetExponent (totalExponent m e) - e).toNat = 0 := by
    rw [targetExponent_eq, lastPlace]
    omega
  simp [shiftToTargetExponent, shiftToExponent, hshift, HShiftRight.hShiftRight, Nat.repeat,
    ExtendedMantissa.ofMantissaAndAccuracy]

theorem shiftToTargetExponent_full (he : -1074 ≤ e) :
    shiftToTargetExponent Format.binary64 (2 ^ 53) e .exact = (⟨2 ^ 52, false, false⟩, e + 1) := by
  have hshift : (Format.binary64.targetExponent (totalExponent (2 ^ 53) e) - e).toNat = 1 := by
    rw [targetExponent_eq, lastPlace, Nat.log2_two_pow]
    omega
  rw [shiftToTargetExponent, shiftToExponent, hshift]
  rfl

theorem toNat_one_append (mantissa : BitVec 52) :
    (1#1 ++ mantissa).toNat = 2 ^ 52 + mantissa.toNat := by
  rw [BitVec.toNat_append, ← Nat.shiftLeft_add_eq_or_of_lt mantissa.isLt]
  rfl

theorem unpack_packComponents_full (s : Sign) {exponent : BitVec 11} (mantissa : BitVec 52)
    (hzero : exponent ≠ 0#11) (hones : exponent ≠ -1#11) (hpos : 0 < 2 ^ 52 + mantissa.toNat) :
    UnpackedFloat.unpack Format.binary64 (packComponents Format.binary64 s exponent mantissa) =
      .finite s (2 ^ 52 + mantissa.toNat) (exponent.toNat - 1075) hpos := by
  simp only [UnpackedFloat.unpack, unpackExponent_packComponents, unpackMantissa_packComponents,
    unpackSign_packComponents, Sign.ofBitVec_toBitVec, if_neg hones, if_neg hzero, toNat_one_append]
  rfl

theorem unpack_packComponents_least (s : Sign) {mantissa : BitVec 52} (hm : mantissa ≠ 0#52)
    (hpos : 0 < mantissa.toNat) :
    UnpackedFloat.unpack Format.binary64 (packComponents Format.binary64 s 0#11 mantissa) =
      .finite s mantissa.toNat (-1074) hpos := by
  have hones : (0#11) ≠ -1#11 := by decide
  simp only [UnpackedFloat.unpack, unpackExponent_packComponents, unpackMantissa_packComponents,
    unpackSign_packComponents, Sign.ofBitVec_toBitVec, if_neg hones, if_pos, dif_neg hm]
  rfl

/-- A mantissa and an exponent that fit survive being packed into 64 bits. -/
theorem unpack_pack (h : Fits m e) (s : Sign) (hm : 0 < m) :
    (Float.Model.pack (.finite s m e hm)).unpack = .finite s m e hm := by
  obtain ⟨hlt, hleast, hgreatest, hfull⟩ := h
  have hbias : (e + Format.binary64.exponentBias +
      Format.binary64.mantissaBitsWithoutImplicit).toNat = (e + 1075).toNat := by
    simp only [Format.exponentBias]
    norm_num
    omega
  simp only [Float.Model.unpack, Float.Model.pack, UnpackedFloat.pack, hbias]
  rw [if_neg (by norm_num; omega)]
  by_cases hfull : 2 ^ 52 ≤ m
  · have hlog : m.log2 = 52 := (Nat.log2_eq_iff hm.ne').mpr ⟨hfull, hlt⟩
    have hexponent : (BitVec.ofNat 11 (e + 1075).toNat).toNat = (e + 1075).toNat := by
      rw [BitVec.toNat_ofNat]
      omega
    have hmantissa : 2 ^ 52 + (BitVec.ofNat 52 m).toNat = m := by
      rw [BitVec.toNat_ofNat]
      omega
    rw [if_pos (by simp [hlog, Format.mantissaBits]),
      unpack_packComponents_full s _ _ _ (by omega)]
    · congr 1
      omega
    · intro hzero
      rw [hzero] at hexponent
      change 0 = _ at hexponent
      omega
    · intro hones
      rw [hones] at hexponent
      change 2047 = _ at hexponent
      omega
  · have hlog : m.log2 < 52 := (Nat.log2_lt hm.ne').mpr (by omega)
    have hmantissa : (BitVec.ofNat 52 m).toNat = m := by
      rw [BitVec.toNat_ofNat]
      omega
    rw [if_neg (by simp only [Format.mantissaBits]; omega),
      unpack_packComponents_least s _ (by omega)]
    · congr 1
      omega
    · intro hzero
      rw [hzero] at hmantissa
      change 0 = _ at hmantissa
      omega

theorem fits_of_unpack {x : Float.Model} {s : Sign} {hm : 0 < m} (h : x.unpack = .finite s m e hm) :
    Fits m e := by
  unfold Float.Model.unpack UnpackedFloat.unpack at h
  dsimp only at h
  have hmantissa : (@unpackMantissa Format.binary64 x.toBits.toBitVec).toNat < 2 ^ 52 :=
    BitVec.isLt _
  have hexponent : (@unpackExponent Format.binary64 x.toBits.toBitVec).toNat < 2 ^ 11 :=
    BitVec.isLt _
  have hbias : (Format.binary64.exponentBias : ℤ) = 1023 := rfl
  rw [hbias] at h
  split at h
  · split at h <;> cases h
  · rename_i hones
    split at h
    · rename_i hzero
      split at h
      · cases h
      · cases h
        rw [hzero]
        exact ⟨by omega, by simp, by simp, .inr (by simp)⟩
    · rename_i hzero
      cases h
      have hleast : (@unpackExponent Format.binary64 x.toBits.toBitVec).toNat ≠ 0 :=
        fun h => hzero (BitVec.eq_of_toNat_eq h)
      have hgreatest : (@unpackExponent Format.binary64 x.toBits.toBitVec).toNat ≠ 2047 :=
        fun h => hones (BitVec.eq_of_toNat_eq h)
      rw [toNat_one_append]
      exact ⟨by omega, by omega, by omega, .inl (by omega)⟩

end Shape

section Value

variable {m : ℕ} {acc : Accuracy}

def signed : Sign → ℚ → ℚ
  | .positive, q => q
  | .negative, q => -q

/-- The number that a double is. There is none behind an infinity. -/
def valueOf? : UnpackedFloat → Option ℚ
  | .zero _ => some 0
  | .finite s m e _ => some (signed s (m * 2 ^ e))
  | .infinity _ => none
  | .notANumber => none

/-- Rounding `v` to `r` passes no whole number. -/
structure Between (v r : ℚ) : Prop where
  floor_le : (⌊v⌋ : ℚ) ≤ r
  le_ceil : r ≤ ⌈v⌉

theorem unpack_pack_zero (s : Sign) : (Float.Model.pack (.zero s)).unpack = .zero s := by
  cases s <;> rfl

/-- The last step of rounding: a mantissa of 53 bits at most is kept as it is, but for a carry into
the next place. -/
theorem valueOf?_shifted (s : Sign) (hm : m ≤ 2 ^ 53) (hleast : -1074 ≤ e) (hgreatest : e ≤ 970)
    (hfull : 2 ^ 52 ≤ m ∨ e = -1074) :
    valueOf? (Float.Model.pack
      (let (em, exponent) := shiftToTargetExponent Format.binary64 m e .exact
      if h : em.mantissa = 0 then .zero s
      else .finite s em.mantissa exponent (Nat.pos_of_ne_zero h))).unpack =
        some (signed s (m * 2 ^ e)) := by
  rcases Nat.lt_or_eq_of_le hm with hlt | rfl
  · rw [shiftToTargetExponent_of_lt hlt hleast]
    by_cases hzero : m = 0
    · subst hzero
      simp only [↓reduceDIte, unpack_pack_zero, valueOf?]
      cases s <;> simp [signed]
    · simp only [hzero, ↓reduceDIte]
      rw [unpack_pack ⟨hlt, hleast, by omega, hfull⟩]
      rfl
  · rw [shiftToTargetExponent_full hleast]
    have hcarry : Fits (2 ^ 52) (e + 1) := ⟨by norm_num, by omega, by omega, .inl le_rfl⟩
    have hvalue : ((2 ^ 52 : ℕ) : ℚ) * 2 ^ (e + 1) = ((2 ^ 53 : ℕ) : ℚ) * 2 ^ e := by
      rw [two_zpow_succ]
      push_cast
      ring
    rw [← hvalue]
    exact congrArg valueOf? (unpack_pack hcarry s (by norm_num))

theorem natCast_eq_mul_zpow (n : ℕ) {t : ℤ} (ht : t ≤ 0) :
    (n : ℚ) = (n * 2 ^ (-t).toNat : ℕ) * 2 ^ t := by
  obtain ⟨k, rfl⟩ : ∃ k : ℕ, t = -k := ⟨(-t).toNat, by omega⟩
  simp

/-- Where the last place is not above the units, no whole number is passed. -/
theorem Reads.between (h : Reads v em e) (he : e ≤ 0) :
    Between v (em.roundedMantissa * 2 ^ e) := by
  constructor
  · obtain ⟨n, hn⟩ := Int.eq_ofNat_of_zero_le (Int.floor_nonneg.mpr h.nonneg)
    have hle : (n : ℚ) ≤ v := by
      have hfloor := Int.floor_le v
      rwa [hn] at hfloor
    rw [hn, Int.cast_natCast]
    rw [natCast_eq_mul_zpow n he] at hle ⊢
    apply mul_le_mul_of_nonneg_right _ (two_zpow_pos e).le
    exact_mod_cast h.le_rounded hle
  · obtain ⟨n, hn⟩ := Int.eq_ofNat_of_zero_le (Int.ceil_nonneg h.nonneg)
    have hle : v ≤ (n : ℚ) := by
      have hceil := Int.le_ceil v
      rwa [hn] at hceil
    rw [hn, Int.cast_natCast]
    rw [natCast_eq_mul_zpow n he] at hle ⊢
    apply mul_le_mul_of_nonneg_right _ (two_zpow_pos e).le
    exact_mod_cast h.rounded_le hle

/-- Where rounding begins, the mantissa reaches down to the last place, or the exponent is the least
one. -/
def Ready (m : ℕ) (e : ℤ) : Prop := 2 ^ 52 ≤ m ∨ e ≤ -1074

theorem Ready.le_lastPlace (h : Ready m e) : e ≤ lastPlace m e := by
  rw [lastPlace]
  rcases h with hm | he
  · have hlog : 52 ≤ m.log2 := (Nat.le_log2 (by omega)).mpr hm
    omega
  · omega

theorem succ_mul_zpow_le (m : ℕ) (e : ℤ) :
    ((m + 1 : ℕ) : ℚ) * 2 ^ e ≤ 2 ^ (53 + lastPlace m e) := by
  have hm : ((m + 1 : ℕ) : ℚ) ≤ 2 ^ (m.log2 + 1 : ℤ) := by
    exact_mod_cast Nat.lt_log2_self
  calc ((m + 1 : ℕ) : ℚ) * 2 ^ e ≤ 2 ^ (m.log2 + 1 : ℤ) * 2 ^ e :=
        mul_le_mul_of_nonneg_right hm (two_zpow_pos e).le
    _ = 2 ^ (m.log2 + 1 + e : ℤ) := (zpow_add₀ (by norm_num) _ _).symm
    _ ≤ 2 ^ (53 + lastPlace m e) :=
      zpow_le_zpow_right₀ (by norm_num) (by rw [lastPlace]; omega)

theorem Ready.two_zpow_le (h : Ready m e) (hleast : lastPlace m e ≠ -1074) :
    (2 : ℚ) ^ (52 + lastPlace m e) ≤ m * 2 ^ e := by
  have hplace : lastPlace m e = m.log2 + e - 52 := by
    rw [lastPlace] at hleast ⊢
    omega
  have hm : m ≠ 0 := by
    rintro rfl
    rw [hplace, Nat.log2_zero] at hleast
    rcases h with hm | he
    · omega
    · rw [lastPlace, Nat.log2_zero] at hplace
      omega
  have hpow : (2 : ℚ) ^ (m.log2 : ℤ) ≤ m := by
    exact_mod_cast Nat.log2_self_le hm
  calc (2 : ℚ) ^ (52 + lastPlace m e) = 2 ^ (m.log2 : ℤ) * 2 ^ e := by
        rw [← zpow_add₀ (by norm_num), hplace]
        congr 1
        omega
    _ ≤ m * 2 ^ e := mul_le_mul_of_nonneg_right hpow (two_zpow_pos e).le

/-- The mantissa to which `v` is cut off at the place `2 ^ t` has 53 bits, unless there is no place
below that one. -/
structure CutAt (v : ℚ) (em : ExtendedMantissa) (t : ℤ) : Prop where
  reads : Reads v em t
  lt : v < 2 ^ (53 + t)
  least : -1074 ≤ t
  full : 2 ^ (52 + t) ≤ v ∨ t = -1074

/-- Where numbers below `2 ^ (53 + k)` are cut off. -/
theorem CutAt.le_of_lt {t k : ℤ} (h : CutAt v em t) (hk : -1074 ≤ k) (hv : v < 2 ^ (53 + k)) :
    t ≤ k := by
  rcases h.full with hfull | hleast
  · have hlt := (zpow_lt_zpow_iff_right₀ (by norm_num)).mp (hfull.trans_lt hv)
    omega
  · omega

/-- `v` is rounded to `r`: it is cut off and the mantissa rounded. -/
def Rounds (v r : ℚ) : Prop := ∃ em t, CutAt v em t ∧ r = em.roundedMantissa * 2 ^ t

theorem rounds_zero : Rounds 0 0 := by
  have hreads := reads_exact 0 (-1074)
  rw [Nat.cast_zero, zero_mul] at hreads
  have hrounded : (ExtendedMantissa.ofMantissaAndAccuracy 0 .exact).roundedMantissa = 0 := rfl
  refine ⟨_, _, ⟨hreads, two_zpow_pos _, le_rfl, .inr rfl⟩, ?_⟩
  rw [hrounded, Nat.cast_zero, zero_mul]

/-- Two numbers to which one is rounded are the same. -/
theorem Rounds.unique {r r' : ℚ} (h : Rounds v r) (h' : Rounds v r') : r = r' := by
  obtain ⟨em, t, hcut, rfl⟩ := h
  obtain ⟨em', t', hcut', rfl⟩ := h'
  obtain rfl : t = t' :=
    (hcut.le_of_lt hcut'.least hcut'.lt).antisymm (hcut'.le_of_lt hcut.least hcut.lt)
  rw [hcut.reads.unique hcut'.reads]

theorem Rounds.abs_sub_le {r : ℚ} {k : ℤ} (h : Rounds v r) (hk : -1074 ≤ k)
    (hv : v < 2 ^ (53 + k)) : |r - v| ≤ 2 ^ k / 2 := by
  obtain ⟨em, t, hcut, rfl⟩ := h
  have hplace : (2 : ℚ) ^ t ≤ 2 ^ k := zpow_le_zpow_right₀ (by norm_num) (hcut.le_of_lt hk hv)
  exact hcut.reads.abs_rounded_sub_le.trans (by linarith)

/-- Below `2 ^ 53` rounding passes no whole number. -/
theorem Rounds.between {r : ℚ} (h : Rounds v r) (hv : v < 2 ^ 53) : Between v r := by
  obtain ⟨em, t, hcut, rfl⟩ := h
  exact hcut.reads.between (hcut.le_of_lt (by norm_num) (by exact_mod_cast hv))

theorem CutAt.mantissa_lt {t : ℤ} (h : CutAt v em t) : em.mantissa < 2 ^ 53 := by
  have hlt : (em.mantissa : ℚ) * 2 ^ t < (2 ^ 53 : ℕ) * 2 ^ t := by
    rw [← two_zpow_add]
    exact h.reads.le.trans_lt h.lt
  exact_mod_cast lt_of_mul_lt_mul_right hlt (two_zpow_pos t).le

theorem Ready.cutAt (h : Ready m e) (hreads : Reads v (.ofMantissaAndAccuracy m acc) e) :
    CutAt v (ExtendedMantissa.ofMantissaAndAccuracy m acc >>> (lastPlace m e - e).toNat)
      (lastPlace m e) := by
  have hshift : e + (lastPlace m e - e).toNat = lastPlace m e := by
    have hplace := h.le_lastPlace
    omega
  have hlow : (m : ℚ) * 2 ^ e ≤ v := by
    simpa only [mantissa_ofMantissaAndAccuracy] using hreads.le
  have hhigh : v < ((m + 1 : ℕ) : ℚ) * 2 ^ e := by
    simpa only [mantissa_ofMantissaAndAccuracy, Nat.cast_succ] using hreads.lt
  refine ⟨?_, hhigh.trans_le (succ_mul_zpow_le m e), le_max_right _ _, ?_⟩
  · have hshifted := hreads.shiftRight (lastPlace m e - e).toNat
    rwa [hshift] at hshifted
  · by_cases hleast : lastPlace m e = -1074
    · exact .inr hleast
    · exact .inl ((h.two_zpow_le hleast).trans hlow)

/-- A number below `2 ^ 53` is rounded to a double. -/
theorem exists_valueOf?_roundWithAccuracy (s : Sign)
    (hreads : Reads v (.ofMantissaAndAccuracy m acc) e) (hready : Ready m e) (hv : v < 2 ^ 53) :
    ∃ r, valueOf? (Float.Model.pack (roundWithAccuracy Format.binary64 s m e acc)).unpack =
      some (signed s r) ∧ Rounds v r := by
  have hcut := hready.cutAt hreads
  refine ⟨_, ?_, _, _, hcut, rfl⟩
  have hshift : e + (lastPlace m e - e).toNat = lastPlace m e := by
    have hplace := hready.le_lastPlace
    omega
  have hwhole : lastPlace m e ≤ 0 := hcut.le_of_lt (by norm_num) (by exact_mod_cast hv)
  have hrounded := roundedMantissa_le
    (ExtendedMantissa.ofMantissaAndAccuracy m acc >>> (lastPlace m e - e).toNat)
  have hsmall := hcut.mantissa_lt
  rw [← valueOf?_shifted s (by omega) hcut.least (by omega) ?_, roundWithAccuracy,
    shiftToTargetExponent, targetExponent_eq, shiftToExponent, hshift]
  apply hcut.full.imp_left
  intro hfull
  apply hcut.reads.le_rounded
  rwa [← two_zpow_add]

theorem shiftLeft_mul_zpow (m k : ℕ) (e : ℤ) : ((m <<< k : ℕ) : ℚ) * 2 ^ (e - k) = m * 2 ^ e := by
  have hsplit : (2 : ℚ) ^ e = (2 ^ k : ℕ) * 2 ^ (e - k) := by
    rw [← two_zpow_add, add_sub_cancel]
  rw [hsplit, Nat.shiftLeft_eq]
  push_cast
  ring

theorem ready_decreaseExponent (hm : 0 < m) :
    let k := (e - lastPlace m e).toNat
    Ready (m <<< k) (e - k) := by
  intro k
  have hk : k = (e - lastPlace m e).toNat := rfl
  rw [lastPlace] at hk
  by_cases hleast : e - k ≤ -1074
  · exact .inr hleast
  · left
    calc 2 ^ 52 ≤ 2 ^ (m.log2 + k) := Nat.pow_le_pow_right (by norm_num) (by omega)
      _ = 2 ^ m.log2 * 2 ^ k := Nat.pow_add ..
      _ ≤ m * 2 ^ k := Nat.mul_le_mul_right _ (Nat.log2_self_le hm.ne')
      _ = m <<< k := (Nat.shiftLeft_eq ..).symm

theorem exists_valueOf?_round (s : Sign) (hm : 0 < m) (hv : (m : ℚ) * 2 ^ e < 2 ^ 53) :
    ∃ r, valueOf? (Float.Model.pack (UnpackedFloat.round Format.binary64 s m e)).unpack =
      some (signed s r) ∧ Between (m * 2 ^ e) r := by
  have hreads := reads_exact (m <<< (e - lastPlace m e).toNat) (e - (e - lastPlace m e).toNat)
  rw [shiftLeft_mul_zpow] at hreads
  simp only [UnpackedFloat.round, decreaseExponent, targetExponent_eq]
  obtain ⟨r, hr, hrounds⟩ :=
    exists_valueOf?_roundWithAccuracy s hreads (ready_decreaseExponent hm) hv
  exact ⟨r, hr, hrounds.between hv⟩

theorem Between.le_of_le {r : ℚ} (h : Between v r) {n : ℕ} (hv : v ≤ n) : r ≤ n :=
  h.le_ceil.trans (by exact_mod_cast Int.ceil_le.mpr hv)

theorem Between.le_of_ge {r : ℚ} (h : Between v r) {n : ℕ} (hv : n ≤ v) : n ≤ r :=
  le_trans (by exact_mod_cast Int.le_floor.mpr hv) h.floor_le

theorem Between.neg {r : ℚ} (h : Between v r) : Between (-v) (-r) := by
  obtain ⟨hfloor, hceil⟩ := h
  constructor
  · rw [Int.floor_neg, Int.cast_neg]
    exact neg_le_neg hceil
  · rw [Int.ceil_neg, Int.cast_neg]
    exact neg_le_neg hfloor

theorem Between.signed {r : ℚ} (h : Between v r) (s : Sign) :
    Between (signed s v) (signed s r) := by
  cases s with
  | positive => exact h
  | negative => exact h.neg

theorem Between.refl (v : ℚ) : Between v v := ⟨Int.floor_le v, Int.le_ceil v⟩

theorem exists_valueOf?_normalize (n : ℤ) (e : ℤ) (hv : |(n : ℚ) * 2 ^ e| < 2 ^ 53) :
    ∃ r, valueOf? (Float.Model.pack
      (UnpackedFloat.normalize Format.binary64 n e .positive)).unpack = some r ∧
        Between (n * 2 ^ e) r := by
  rw [UnpackedFloat.normalize]
  rcases lt_trichotomy n 0 with hneg | rfl | hpos
  · obtain ⟨m, rfl⟩ : ∃ m : ℕ, n = -m := ⟨(-n).toNat, by omega⟩
    rw [Int.compare_eq_lt.mpr hneg, neg_neg, Int.toNat_natCast]
    rw [Int.cast_neg, Int.cast_natCast, neg_mul] at hv ⊢
    rw [abs_neg] at hv
    obtain ⟨r, hr, hbetween⟩ := exists_valueOf?_round .negative (by omega) (lt_of_abs_lt hv)
    exact ⟨signed .negative r, hr, hbetween.neg⟩
  · refine ⟨0, ?_, ?_⟩
    · rw [Int.compare_eq_eq.mpr rfl]
      exact congrArg valueOf? (unpack_pack_zero .positive)
    · rw [Int.cast_zero, zero_mul]
      exact .refl 0
  · obtain ⟨m, rfl⟩ : ∃ m : ℕ, n = m := ⟨n.toNat, by omega⟩
    rw [Int.compare_eq_gt.mpr hpos, Int.toNat_natCast]
    rw [Int.cast_natCast] at hv ⊢
    exact exists_valueOf?_round .positive (by omega) (lt_of_abs_lt hv)

end Value

end Double

end StyleVars
