-- Counts as floating numbers. A count that is not zero becomes a positive number in normal form,
-- and so does the quotient of two of them. What a formula divides by is zero just when the count
-- is zero.
import Mathlib
import Stylometry.Count
import Stylometry.Measure.Scalar

namespace Stylometry

namespace Binary64

open Float.Model Float.Model.UnpackedFloat

/-- A positive number with a mantissa of 53 bits, and an exponent from `low` to `high`. -/
def Normal (low high : Int) (x : UnpackedFloat) : Prop :=
  ∃ m e h, x = .finite .positive m e h ∧ m.log2 = 52 ∧ low ≤ e ∧ e ≤ high

theorem Normal.mono {low low' high high' : Int} {x : UnpackedFloat} (h : Normal low high x)
    (hlow : low' ≤ low) (hhigh : high ≤ high') : Normal low' high' x := by
  obtain ⟨m, e, hm, hx, hlog, hl, hh⟩ := h
  exact ⟨m, e, hm, hx, hlog, Int.le_trans hlow hl, Int.le_trans hh hhigh⟩

/-! ## Rounding -/

theorem mantissa_shiftRight (em : ExtendedMantissa) (n : Nat) :
    (em >>> n).mantissa = em.mantissa / 2 ^ n := by
  change (n.repeat ExtendedMantissa.shiftRightOne em).mantissa = _
  induction n with
  | zero => simp [Nat.repeat]
  | succ n ih =>
    rw [Nat.repeat, ExtendedMantissa.shiftRightOne, ih, Nat.div_div_eq_div_mul, Nat.pow_succ]

theorem mantissa_ofMantissaAndAccuracy (m : Nat) (a : Accuracy) :
    (ExtendedMantissa.ofMantissaAndAccuracy m a).mantissa = m := by
  unfold ExtendedMantissa.ofMantissaAndAccuracy
  split <;> rfl

theorem roundedMantissa_cases (em : ExtendedMantissa) :
    em.roundedMantissa = em.mantissa ∨ em.roundedMantissa = em.mantissa + 1 := by
  unfold ExtendedMantissa.roundedMantissa Accuracy.roundToNearestEven
  split <;> omega

theorem log2_div_two_pow {m n k : Nat} (h : m.log2 = n + k) : (m / 2 ^ k).log2 = n := by
  rw [Nat.log2_eq_log_two] at h ⊢
  rw [Nat.log_div_base_pow, h, Nat.add_sub_cancel]

theorem log2_succ_cases {m n : Nat} (hm : 0 < m) (h : m.log2 = n) :
    (m + 1).log2 = n ∨ (m + 1).log2 = n + 1 := by
  obtain ⟨hlow, hhigh⟩ := (Nat.log2_eq_iff (Nat.ne_of_gt hm)).1 h
  rcases Nat.lt_or_ge (m + 1) (2 ^ (n + 1)) with hlt | hge
  · exact .inl ((Nat.log2_eq_iff (by omega)).2 ⟨by omega, hlt⟩)
  · have heq : m + 1 = 2 ^ (n + 1) := by omega
    rw [heq, Nat.log2_two_pow]
    exact .inr rfl

/-- A mantissa that has enough bits is cut to 53 of them. -/
theorem shiftToTargetExponent_eq {m k : Nat} {e : Int} (a : Accuracy) (hm : m.log2 = 52 + k)
    (he : -1074 ≤ e + k) :
    shiftToTargetExponent Format.binary64 m e a =
      (ExtendedMantissa.ofMantissaAndAccuracy m a >>> k, e + k) := by
  have htarget : Format.binary64.targetExponent (totalExponent m e) = e + k := by
    simp only [Format.targetExponent, totalExponent, Format.mantissaBits, Format.minExponent, hm]
    omega
  have hshift : (e + k - e).toNat = k := by omega
  simp only [shiftToTargetExponent, shiftToExponent, htarget, hshift]

/-- To round a mantissa that has enough bits gives a number in normal form. -/
theorem normal_roundWithAccuracy {m k : Nat} {e : Int} (a : Accuracy) (hm : m.log2 = 52 + k)
    (he : -1074 ≤ e + k) :
    Normal (e + k) (e + k + 1) (roundWithAccuracy Format.binary64 .positive m e a) := by
  obtain ⟨em, heq⟩ : ∃ em, em = ExtendedMantissa.ofMantissaAndAccuracy m a >>> k := ⟨_, rfl⟩
  have hem : em.mantissa.log2 = 52 := by
    rw [heq, mantissa_shiftRight, mantissa_ofMantissaAndAccuracy]
    exact log2_div_two_pow hm
  -- rounding up can make the mantissa one bit too long
  obtain ⟨j, hj, hrounded⟩ : ∃ j ≤ 1, em.roundedMantissa.log2 = 52 + j := by
    rcases roundedMantissa_cases em with h | h
    · exact ⟨0, by omega, h ▸ hem⟩
    · have hpos : 0 < em.mantissa := by
        rw [Nat.pos_iff_ne_zero]
        intro hzero
        rw [hzero, Nat.log2_zero] at hem
        omega
      rw [h]
      rcases log2_succ_cases hpos hem with h | h
      · exact ⟨0, by omega, h⟩
      · exact ⟨1, by omega, h⟩
  have hlog : (em.roundedMantissa / 2 ^ j).log2 = 52 := log2_div_two_pow hrounded
  have hne : em.roundedMantissa / 2 ^ j ≠ 0 := by
    intro hzero
    rw [hzero, Nat.log2_zero] at hlog
    omega
  have hfirst := shiftToTargetExponent_eq a hm he
  have hsecond := shiftToTargetExponent_eq (e := e + k) .exact hrounded (by omega)
  have hround : roundWithAccuracy Format.binary64 .positive m e a =
      .finite .positive (em.roundedMantissa / 2 ^ j) (e + k + j) (Nat.pos_of_ne_zero hne) := by
    simp only [roundWithAccuracy, hfirst, ← heq, hsecond, mantissa_shiftRight,
      mantissa_ofMantissaAndAccuracy, dif_neg hne]
  exact ⟨_, _, _, hround, hlog, by omega, by omega⟩

/-! ## Packing -/

theorem toNat_append_mantissa {m : Nat} (h : m.log2 = 52) :
    (1#1 ++ BitVec.ofNat 52 m).toNat = m := by
  have hm : m ≠ 0 := by
    rintro rfl
    simp at h
  obtain ⟨hlow, hhigh⟩ := (Nat.log2_eq_iff hm).1 h
  rw [BitVec.toNat_append, ← Nat.shiftLeft_add_eq_or_of_lt (BitVec.isLt _)]
  simp [Nat.shiftLeft_eq]
  omega

/-- A number in normal form is as it was when it is packed and unpacked. -/
theorem unpack_pack {low high : Int} {x : UnpackedFloat} (h : Normal low high x)
    (hlow : -1074 ≤ low) (hhigh : high ≤ 971) : (Float.Model.pack x).unpack = x := by
  obtain ⟨m, e, hm, rfl, hlog, hl, hh⟩ := h
  -- the exponent is stored as a number from one on
  obtain ⟨b, hb⟩ : ∃ b : Nat, e = b - 1075 := ⟨(e + 1075).toNat, by omega⟩
  subst hb
  have hbits : (BitVec.ofNat 11 b).toNat = b := by
    rw [BitVec.toNat_ofNat, Nat.mod_eq_of_lt (by omega)]
  have hne : ∀ c : BitVec 11, c.toNat ≠ b → BitVec.ofNat 11 b ≠ c := by
    rintro c hc rfl
    exact hc hbits
  have hzero : BitVec.ofNat 11 b ≠ 0#11 := hne _ (by simp; omega)
  have hones : BitVec.ofNat 11 b ≠ -1#11 := hne _ (by simp; omega)
  have hpack : UnpackedFloat.pack Format.binary64 (.finite .positive m (b - 1075) hm) =
      packComponents Format.binary64 .positive (BitVec.ofNat 11 b) (BitVec.ofNat 52 m) := by
    have hstored : ((b : Int) - 1075 + Format.binary64.exponentBias + (52 : Nat)).toNat = b := by
      simp only [Format.exponentBias]
      omega
    have hmantissa : Format.binary64.mantissaBits = 53 := rfl
    simp only [UnpackedFloat.pack]
    rw [hstored, hlog, hmantissa, if_neg (by omega), if_pos rfl]
  change UnpackedFloat.unpack Format.binary64 (UnpackedFloat.pack Format.binary64 _) = _
  rw [hpack]
  simp only [UnpackedFloat.unpack, unpackMantissa_packComponents, unpackExponent_packComponents,
    unpackSign_packComponents, if_neg hones, if_neg hzero, hbits, toNat_append_mantissa hlog]
  rfl

/-! ## Counts -/

theorem log2_shiftLeft {n : Nat} (hn : n ≠ 0) (k : Nat) : (n <<< k).log2 = n.log2 + k := by
  induction k with
  | zero => rfl
  | succ k ih =>
    have hne : n <<< k ≠ 0 := by simpa [Nat.shiftLeft_eq] using hn
    rw [Nat.shiftLeft_succ, Nat.log2_two_mul hne, ih, Nat.add_assoc]

theorem log2_lt_sixtyFour {n : Nat} (hn : 0 < n) (hlt : n < countLimit) : n.log2 < 64 :=
  (Nat.log2_lt (Nat.ne_of_gt hn)).2 hlt

/-- A count with few bits gets zeros after them. -/
theorem normal_round {n : Nat} (hn : 0 < n) (hlt : n < 2 ^ 53) :
    Normal (-52) 1 (UnpackedFloat.round Format.binary64 .positive n 0) := by
  have hlog : n.log2 < 53 := (Nat.log2_lt (Nat.ne_of_gt hn)).2 hlt
  have htarget : Format.binary64.targetExponent (totalExponent n 0) = n.log2 - 52 := by
    simp only [Format.targetExponent, totalExponent, Format.mantissaBits, Format.minExponent]
    omega
  have hshift : (0 - ((n.log2 : Int) - 52)).toNat = 52 - n.log2 := by omega
  have hlong : (n <<< (52 - n.log2)).log2 = 52 + 0 := by
    rw [log2_shiftLeft (Nat.ne_of_gt hn)]
    omega
  simp only [UnpackedFloat.round, htarget, decreaseExponent, hshift]
  exact (normal_roundWithAccuracy .exact hlong (by omega)).mono (by omega) (by omega)

/-- A count below `2 ^ 53` is converted as it stands and multiplied by one. -/
theorem normal_ofNat_small {n : Nat} (hn : 0 < n) (hlt : n < 2 ^ 53) :
    Normal (-52) 2 (Float.ofNat n).toModel.unpack := by
  have hone : (Float.ofBits 0x3FF0000000000000).toModel.unpack =
      .finite .positive (2 ^ 52) (-52) (by decide) := rfl
  have hword : n.toUInt64.toNat = n := Nat.mod_eq_of_lt (by omega)
  have hproduct : Float.ofNat n = n.toUInt64.toFloat * Float.ofBits 0x3FF0000000000000 := by
    change Float.ofScientific n false 0 = _
    rw [Float.ofScientific, dif_pos ⟨hlt, by decide⟩]
    rfl
  have hcount : n.toUInt64.toFloat.toModel.unpack =
      UnpackedFloat.round Format.binary64 .positive n 0 := by
    have hpositive : compare (n : Int) 0 = .gt := Int.compare_eq_gt.2 (by omega)
    have hround : UnpackedFloat.ofUInt64 Format.binary64 n.toUInt64 =
        UnpackedFloat.round Format.binary64 .positive n 0 := by
      simp only [UnpackedFloat.ofUInt64, UnpackedFloat.ofNat, UnpackedFloat.ofInt,
        UnpackedFloat.normalize, hword, hpositive, Int.toNat_natCast]
    rw [← hround]
    exact unpack_pack (hround ▸ normal_round hn hlt) (by decide) (by decide)
  obtain ⟨m, e, hm, hx, hlog, hlow, hhigh⟩ := normal_round hn hlt
  have hlong : (m * 2 ^ 52).log2 = 52 + 52 := by rw [← Nat.shiftLeft_eq, log2_shiftLeft (Nat.ne_of_gt hm), hlog]
  have hnormal : Normal (-52) 2
      (UnpackedFloat.mul Format.binary64 (.finite .positive m e hm)
        (.finite .positive (2 ^ 52) (-52) (by decide))) :=
    (normal_roundWithAccuracy (e := e + -52) .exact hlong (by omega)).mono (by omega) (by omega)
  have hfloat : (Float.ofNat n).toModel.unpack =
      (Float.Model.pack (UnpackedFloat.mul Format.binary64 (.finite .positive m e hm)
        (.finite .positive (2 ^ 52) (-52) (by decide)))).unpack := by
    rw [hproduct, ← hx, ← hcount, ← hone]
    rfl
  rw [hfloat, unpack_pack hnormal (by decide) (by decide)]
  exact hnormal

/-- A larger count goes through its decimal notation. -/
theorem normal_ofNat_large {n : Nat} (hn : 2 ^ 53 ≤ n) (hlt : n < countLimit) :
    Normal (-52) 13 (Float.ofNat n).toModel.unpack := by
  have hpos : 0 < n := by omega
  have hlog := log2_lt_sixtyFour hpos hlt
  have hlong : (n <<< 53 * 10 ^ 0).log2 = 52 + (n.log2 + 1) := by
    rw [Nat.pow_zero, Nat.mul_one, log2_shiftLeft (Nat.ne_of_gt hpos)]
    omega
  have hpow : (0 : Int) ≤ 2 ^ Format.binary64.exponentBits := by decide
  have hscientific : UnpackedFloat.ofScientific Format.binary64 n 0 =
      roundWithAccuracy Format.binary64 .positive (n <<< 53 * 10 ^ 0) (-53 + 0) .exact := by
    rw [UnpackedFloat.ofScientific, dif_neg (by omega), if_neg (by decide), if_neg (by omega),
      if_pos (by decide)]
    rfl
  have hnormal : Normal (-52) 13 (UnpackedFloat.ofScientific Format.binary64 n 0) := by
    rw [hscientific]
    exact (normal_roundWithAccuracy .exact hlong (by omega)).mono (by omega) (by omega)
  have hfloat : Float.ofNat n =
      .ofModel (.pack (UnpackedFloat.ofScientific Format.binary64 n 0)) := by
    change Float.ofScientific n false 0 = _
    rw [Float.ofScientific, dif_neg (by omega)]
    rfl
  rw [hfloat, unpack_pack hnormal (by decide) (by decide)]
  exact hnormal

/-- A count that is not zero is a number in normal form. -/
theorem normal_ofNat {n : Nat} (hn : 0 < n) (hlt : n < countLimit) :
    Normal (-52) 13 (Float.ofNat n).toModel.unpack := by
  rcases Nat.lt_or_ge n (2 ^ 53) with h | h
  · exact (normal_ofNat_small hn h).mono (by decide) (by decide)
  · exact normal_ofNat_large h hlt

/-! ## Quotients -/

theorem log2_quotient_cases {m n : Nat} (hm : m.log2 = 52) (hn : n.log2 = 52) (hmpos : 0 < m)
    (hnpos : 0 < n) : ((m <<< 53) / n).log2 = 52 ∨ ((m <<< 53) / n).log2 = 53 := by
  obtain ⟨hmlow, hmhigh⟩ := (Nat.log2_eq_iff (Nat.ne_of_gt hmpos)).1 hm
  obtain ⟨hnlow, hnhigh⟩ := (Nat.log2_eq_iff (Nat.ne_of_gt hnpos)).1 hn
  have hlow : 2 ^ 52 ≤ (m <<< 53) / n := by
    rw [Nat.le_div_iff_mul_le hnpos, Nat.shiftLeft_eq]
    omega
  have hhigh : (m <<< 53) / n < 2 ^ 54 := by
    rw [Nat.div_lt_iff_lt_mul hnpos, Nat.shiftLeft_eq]
    omega
  rcases Nat.lt_or_ge ((m <<< 53) / n) (2 ^ 53) with h | h
  · exact .inl ((Nat.log2_eq_iff (by omega)).2 ⟨hlow, h⟩)
  · exact .inr ((Nat.log2_eq_iff (by omega)).2 ⟨h, hhigh⟩)

/-- The quotient of two numbers in normal form is one as well. -/
theorem normal_div {low high low' high' : Int} {x y : UnpackedFloat} (hx : Normal low high x)
    (hy : Normal low' high' y) (h : -1021 ≤ low - high') :
    Normal (low - high' - 53) (high - low' - 51) (UnpackedFloat.div Format.binary64 x y) := by
  obtain ⟨m, e, hm, rfl, hlog, hl, hh⟩ := hx
  obtain ⟨m', e', hm', rfl, hlog', hl', hh'⟩ := hy
  have htarget : min (e - e')
      (Format.binary64.targetExponent (totalExponent m e - totalExponent m' e')) = e - e' - 53 := by
    simp only [Format.targetExponent, totalExponent, Format.mantissaBits, Format.minExponent, hlog,
      hlog']
    omega
  have hshift : (e - e' - (e - e' - 53)).toNat = 53 := by omega
  have hdiv : UnpackedFloat.div Format.binary64 (.finite .positive m e hm)
      (.finite .positive m' e' hm') =
        roundWithAccuracy Format.binary64 .positive ((m <<< 53) / m') (e - e' - 53)
          (accuracyOfFraction ((m <<< 53) % m') m') := by
    simp only [UnpackedFloat.div, divCore, htarget, hshift]
    rfl
  rw [hdiv]
  rcases log2_quotient_cases hlog hlog' hm hm' with hq | hq
  · exact (normal_roundWithAccuracy (k := 0) _ hq (by omega)).mono (by omega) (by omega)
  · exact (normal_roundWithAccuracy (k := 1) _ hq (by omega)).mono (by omega) (by omega)

/-! ## Comparison with zero -/

theorem isZero_eq (x : Float) :
    Scalar.isZero x = UnpackedFloat.beq x.toModel.unpack (.zero .positive) := rfl

theorem isNonPositive_eq (x : Float) :
    Scalar.isNonPositive x = UnpackedFloat.le x.toModel.unpack (.zero .positive) := by
  change decide (decide (UnpackedFloat.le x.toModel.unpack (.zero .positive) = true) = true) = _
  rw [Bool.decide_eq_true, Bool.decide_eq_true]

theorem unpack_zero : (Float.ofNat 0).toModel.unpack = .zero .positive := rfl

theorem unpack_div (x y : Float) :
    (x / y).toModel.unpack = (Float.Model.pack
      (UnpackedFloat.div Format.binary64 x.toModel.unpack y.toModel.unpack)).unpack := rfl

/-- A number in normal form is above zero. -/
theorem Normal.positive {low high : Int} {x : Float} (h : Normal low high x.toModel.unpack) :
    Scalar.isZero x = false ∧ Scalar.isNonPositive x = false := by
  obtain ⟨m, e, hm, hx, -⟩ := h
  rw [isZero_eq, isNonPositive_eq, hx]
  exact ⟨rfl, rfl⟩

theorem zero_div_unpack {low high : Int} {x : Float} (h : Normal low high x.toModel.unpack) :
    (Float.ofNat 0 / x).toModel.unpack = .zero .positive := by
  obtain ⟨m, e, hm, hx, -⟩ := h
  rw [unpack_div, unpack_zero, hx, UnpackedFloat.div]
  rfl

end Binary64

/-! ## The laws of the formulas -/

namespace Scalar

/-- What the formulas need to know of conversions and quotients of counts. -/
structure CountLaws (α : Type) [Scalar α] : Prop where
  /-- A count is converted to zero just when it is zero. -/
  isZero_ofCount : ∀ {n : Nat}, n < countLimit → (isZero (ofCount n : α) = true ↔ n = 0)
  /-- Zero divided by a count is zero or below. -/
  zero_div : ∀ {n : Nat}, 0 < n → n < countLimit →
    isNonPositive ((ofCount 0 : α) / ofCount n) = true
  /-- The quotient of two counts is above zero. -/
  pos_div : ∀ {m n : Nat}, 0 < m → m < countLimit → 0 < n → n < countLimit →
    isNonPositive ((ofCount m : α) / ofCount n) = false

/-- Floating numbers of double precision obey the laws. -/
theorem countLaws_float : CountLaws Float where
  isZero_ofCount {n} hlt := by
    rcases Nat.eq_zero_or_pos n with rfl | hn
    · exact iff_of_true rfl rfl
    · have hpositive := (Binary64.normal_ofNat hn hlt).positive.1
      exact iff_of_false (Bool.eq_false_iff.1 hpositive) (Nat.ne_of_gt hn)
  zero_div {n} hn hlt := by
    have hzero := Binary64.zero_div_unpack (Binary64.normal_ofNat hn hlt)
    change isNonPositive (Float.ofNat 0 / Float.ofNat n) = true
    rw [Binary64.isNonPositive_eq, hzero]
    rfl
  pos_div {m n} hm hmlt hn hnlt := by
    have hdiv := Binary64.normal_div (Binary64.normal_ofNat hm hmlt) (Binary64.normal_ofNat hn hnlt)
      (by decide)
    have hunpack : (Float.ofNat m / Float.ofNat n).toModel.unpack = _ :=
      Binary64.unpack_pack hdiv (by decide) (by decide)
    have hnormal := hdiv
    rw [← hunpack] at hnormal
    exact hnormal.positive.2

end Scalar
end Stylometry
