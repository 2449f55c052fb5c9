import Crossing.Proofs.Rounding

/-!
# Integers as doubles

The double of an integer has the value of the integer rounded to 53 bits, and doubles compare as
their values do.

- `nearest`: an integer rounded to 53 bits, ties to even;
- `value`, `IsNormal`: what a double stands for, and that it has 53 bits;
- `compare_of_isNormal`: such doubles compare as what they stand for;
- `Fixnum.rounded`, `Fixnum.compare_toFloat`: fixnums compare as the rounded integers;
- `Fixnum.rounded_le_rounded`, `Fixnum.rounded_eq_val`: rounding keeps the order, and changes
  nothing up to `2 ^ 53`.
-/

namespace Crossing

open Float.Model.UnpackedFloat
open Float.Model (UnpackedFloat Format totalExponent)

namespace Rounding

/-! ### Rounding to a power of two -/

/-- How often `2 ^ k` goes into a number, to the nearest; in the middle, to the even one. -/
def nearestQuotient (k m : Nat) : Nat :=
  if 2 * (m % 2 ^ k) < 2 ^ k then m / 2 ^ k
  else if 2 * (m % 2 ^ k) = 2 ^ k then m / 2 ^ k + m / 2 ^ k % 2
  else m / 2 ^ k + 1

/-- The sticky bit tells whether anything else was shifted out. -/
theorem stickyBit_shiftRight (m n : Nat) :
    (ExtendedMantissa.ofMantissaAndAccuracy m .exact >>> (n + 1)).stickyBit =
      (m % 2 ^ n != 0) := by
  induction n with
  | zero => simp [HShiftRight.hShiftRight, Nat.repeat, ExtendedMantissa.shiftRightOne,
      ExtendedMantissa.ofMantissaAndAccuracy, Nat.mod_one]
  | succ n ih =>
    change ((ExtendedMantissa.ofMantissaAndAccuracy m .exact >>> (n + 1)).roundBit ||
      (ExtendedMantissa.ofMantissaAndAccuracy m .exact >>> (n + 1)).stickyBit) = _
    have hpos : 0 < 2 ^ n := Nat.two_pow_pos n
    rw [ih, roundBit_shiftRight, mantissa_ofMantissaAndAccuracy, Nat.mod_pow_succ,
      Bool.eq_iff_iff]
    simp only [Bool.or_eq_true, bne_iff_ne, ne_eq, Nat.add_eq_zero_iff, Nat.mul_eq_zero]
    omega

/-- What is left of a number when it is shifted: the quotient, the first bit after it, and
whether there are others. -/
theorem shiftRight_succ (m k : Nat) :
    ExtendedMantissa.ofMantissaAndAccuracy m .exact >>> (k + 1) =
      ⟨m / 2 ^ (k + 1), m / 2 ^ k % 2 != 0, m % 2 ^ k != 0⟩ := by
  have hmantissa := mantissa_shiftRight (.ofMantissaAndAccuracy m .exact) (k + 1)
  have hround := roundBit_shiftRight (.ofMantissaAndAccuracy m .exact) k
  rw [mantissa_ofMantissaAndAccuracy] at hmantissa hround
  rw [← hmantissa, ← hround, ← stickyBit_shiftRight]

/-- What shifting and rounding come to. -/
theorem roundedMantissa_shiftRight (m k : Nat) :
    (ExtendedMantissa.ofMantissaAndAccuracy m .exact >>> k).roundedMantissa =
      nearestQuotient k m := by
  cases k with
  | zero =>
    simp [HShiftRight.hShiftRight, Nat.repeat, nearestQuotient, Nat.mod_one,
      ExtendedMantissa.ofMantissaAndAccuracy, ExtendedMantissa.roundedMantissa,
      ExtendedMantissa.accuracy, Accuracy.roundToNearestEven]
  | succ k =>
    have hmod : m % 2 ^ (k + 1) = m % 2 ^ k + 2 ^ k * (m / 2 ^ k % 2) := Nat.mod_pow_succ
    have hlt : m % 2 ^ k < 2 ^ k := Nat.mod_lt m (Nat.two_pow_pos k)
    have hpow : 2 ^ (k + 1) = 2 * 2 ^ k := by rw [pow_succ, Nat.mul_comm]
    rw [shiftRight_succ, nearestQuotient, hmod]
    generalize m / 2 ^ (k + 1) = q
    rw [hpow]
    rcases Nat.mod_two_eq_zero_or_one (m / 2 ^ k) with hbit | hbit <;>
      rcases Nat.eq_zero_or_pos (m % 2 ^ k) with hrest | hrest
    · -- nothing is rounded off
      rw [hbit, hrest, if_pos (by omega)]
      rfl
    · rw [hbit, Nat.mul_zero, Nat.add_zero, if_pos (by omega), bne_iff_ne.mpr hrest.ne']
      rfl
    · -- the middle
      rw [hbit, hrest, if_neg (by omega), if_pos (by omega)]
      rfl
    · rw [hbit, if_neg (by omega), if_neg (by omega), bne_iff_ne.mpr hrest.ne']
      rfl

/-- The nearest quotient is at least the quotient. -/
theorem le_nearestQuotient (k m : Nat) : m / 2 ^ k ≤ nearestQuotient k m := by
  unfold nearestQuotient
  split
  · rfl
  · split <;> omega

/-- The nearest quotient is at most the next one. -/
theorem nearestQuotient_le (k m : Nat) : nearestQuotient k m ≤ m / 2 ^ k + 1 := by
  unfold nearestQuotient
  split
  · omega
  · split <;> omega

theorem nearestQuotient_mono (k : Nat) {m n : Nat} (h : m ≤ n) :
    nearestQuotient k m ≤ nearestQuotient k n := by
  obtain hlt | heq := Nat.lt_or_eq_of_le (Nat.div_le_div_right (c := 2 ^ k) h)
  · calc nearestQuotient k m ≤ m / 2 ^ k + 1 := nearestQuotient_le k m
      _ ≤ n / 2 ^ k := hlt
      _ ≤ nearestQuotient k n := le_nearestQuotient k n
  · have hm := Nat.div_add_mod m (2 ^ k)
    have hn := Nat.div_add_mod n (2 ^ k)
    rw [heq] at hm
    have hmod : m % 2 ^ k ≤ n % 2 ^ k := by omega
    unfold nearestQuotient
    rw [heq]
    split_ifs <;> omega

/-- What is a multiple stays as it is. -/
theorem nearestQuotient_mul (k c : Nat) : nearestQuotient k (c * 2 ^ k) = c := by
  have hpos : 0 < 2 ^ k := Nat.two_pow_pos k
  rw [nearestQuotient, Nat.mul_mod_left, if_pos (by omega), Nat.mul_div_cancel _ hpos]

/-- Further bits at the end make no difference. -/
theorem nearestQuotient_add (k i m : Nat) :
    nearestQuotient (k + i) (m * 2 ^ i) = nearestQuotient k m := by
  have hpos : 0 < 2 ^ i := Nat.two_pow_pos i
  have hscale : ∀ a b : Nat, a * 2 ^ i < b * 2 ^ i ↔ a < b := fun a b =>
    Nat.mul_lt_mul_right hpos
  have hequal : ∀ a b : Nat, a * 2 ^ i = b * 2 ^ i ↔ a = b := fun a b =>
    Nat.mul_left_inj hpos.ne'
  unfold nearestQuotient
  rw [pow_add, Nat.mul_mod_mul_right, Nat.mul_div_mul_right _ _ hpos, ← Nat.mul_assoc]
  simp only [hscale, hequal]

/-! ### The nearest integer of 53 bits -/

/-- A number rounded to 53 bits. -/
def nearest (n : Nat) : Nat := nearestQuotient (n.log2 - 52) n * 2 ^ (n.log2 - 52)

theorem nearest_eq_self {n : Nat} (hn : n ≤ 2 ^ 53) : nearest n = n := by
  obtain hlt | rfl := Nat.lt_or_eq_of_le hn
  · have hlog : n.log2 ≤ 52 := log2_le_of_lt hlt
    have h := nearestQuotient_mul 0 n
    rw [pow_zero, Nat.mul_one] at h
    rw [nearest, Nat.sub_eq_zero_of_le hlog, pow_zero, Nat.mul_one, h]
  · decide +kernel

/-- The bits of a multiple of a power of two. -/
theorem log2_mul_two_pow {n : Nat} (hn : n ≠ 0) (i : Nat) : (n * 2 ^ i).log2 = n.log2 + i := by
  rw [Nat.log2_eq_log_two, Nat.log2_eq_log_two]
  induction i with
  | zero => rw [pow_zero, Nat.mul_one, Nat.add_zero]
  | succ i ih =>
    have hpos : n * 2 ^ i ≠ 0 := Nat.mul_ne_zero hn (Nat.two_pow_pos i).ne'
    rw [pow_succ, ← Nat.mul_assoc, Nat.log_mul_base Nat.one_lt_two hpos, ih, Nat.add_assoc]

/-- Rounding commutes with powers of two. -/
theorem nearest_mul_two_pow (n i : Nat) : nearest (n * 2 ^ i) = nearest n * 2 ^ i := by
  by_cases hn : n = 0
  · subst hn
    rw [Nat.zero_mul, nearest_eq_self (Nat.zero_le _), Nat.zero_mul]
  rw [nearest, log2_mul_two_pow hn, nearest]
  obtain hlog | hlog := Nat.le_total 52 n.log2
  · rw [Nat.sub_add_comm hlog, nearestQuotient_add, pow_add, Nat.mul_assoc]
  · obtain ⟨j, hj⟩ : ∃ j, i = j + (n.log2 + i - 52) := ⟨i - (n.log2 + i - 52), by omega⟩
    have hquotient : nearestQuotient (n.log2 - 52) n = n := by
      have h := nearestQuotient_mul 0 n
      rwa [pow_zero, Nat.mul_one, ← Nat.sub_eq_zero_of_le hlog] at h
    have hsplit : n * 2 ^ i = n * 2 ^ j * 2 ^ (n.log2 + i - 52) := by
      rw [Nat.mul_assoc, ← pow_add, ← hj]
    rw [hquotient, Nat.sub_eq_zero_of_le hlog, pow_zero, Nat.mul_one, hsplit,
      nearestQuotient_mul]

/-- Rounding does not go below the power of two that a number starts with. -/
theorem two_pow_log2_le_nearest {n : Nat} (hn : n ≠ 0) : 2 ^ n.log2 ≤ nearest n := by
  have hlog : 2 ^ n.log2 ≤ n := Nat.log2_self_le hn
  obtain hsmall | hlarge := Nat.le_total n.log2 52
  · have hlt : n < 2 ^ 53 := Nat.lt_of_lt_of_le Nat.lt_log2_self
      (Nat.pow_le_pow_right (by decide) (by omega))
    rwa [nearest_eq_self hlt.le]
  · have hsplit : 2 ^ n.log2 = 2 ^ 52 * 2 ^ (n.log2 - 52) := by
      rw [← pow_add]
      congr 1
      omega
    have hquotient : 2 ^ 52 ≤ n / 2 ^ (n.log2 - 52) :=
      (Nat.le_div_iff_mul_le (Nat.two_pow_pos _)).mpr (by omega)
    rw [hsplit, nearest]
    exact Nat.mul_le_mul_right _ (hquotient.trans (le_nearestQuotient _ n))

/-- Rounding does not go above the next power of two. -/
theorem nearest_le_two_pow (n : Nat) : nearest n ≤ 2 ^ (n.log2 + 1) := by
  have hlt : n < 2 ^ (n.log2 + 1) := Nat.lt_log2_self
  obtain hsmall | hlarge := Nat.le_total n.log2 52
  · have hle : 2 ^ (n.log2 + 1) ≤ 2 ^ 53 := Nat.pow_le_pow_right (by decide) (by omega)
    rw [nearest_eq_self (by omega)]
    exact hlt.le
  · have hsplit : 2 ^ (n.log2 + 1) = 2 ^ 53 * 2 ^ (n.log2 - 52) := by
      rw [← pow_add]
      congr 1
      omega
    have hquotient : n / 2 ^ (n.log2 - 52) < 2 ^ 53 :=
      (Nat.div_lt_iff_lt_mul (Nat.two_pow_pos _)).mpr (by omega)
    rw [hsplit, nearest]
    exact Nat.mul_le_mul_right _ ((nearestQuotient_le _ n).trans hquotient)

/-- Rounding keeps the order. -/
theorem nearest_mono {m n : Nat} (h : m ≤ n) : nearest m ≤ nearest n := by
  by_cases hn : n = 0
  · subst hn
    rw [Nat.le_zero.mp h]
  have hlog : m.log2 ≤ n.log2 := by
    rw [Nat.log2_eq_log_two, Nat.log2_eq_log_two]
    exact Nat.log_mono_right h
  obtain hlt | heq := Nat.lt_or_eq_of_le hlog
  · calc nearest m ≤ 2 ^ (m.log2 + 1) := nearest_le_two_pow m
      _ ≤ 2 ^ n.log2 := Nat.pow_le_pow_right (by decide) hlt
      _ ≤ nearest n := two_pow_log2_le_nearest hn
  · rw [nearest, nearest, heq]
    exact Nat.mul_le_mul_right _ (nearestQuotient_mono _ h)

/-! ### What doubles stand for -/

/-- The number of a sign and a magnitude. -/
def signed : Sign → ℚ → ℚ
  | .positive, x => x
  | .negative, x => -x

/-- The number that a finite double stands for. -/
def value : UnpackedFloat → ℚ
  | .finite s m e _ => signed s (m * 2 ^ e)
  | _ => 0

/-- Zero, or a double with a mantissa of exactly 53 bits. -/
def IsNormal : UnpackedFloat → Prop
  | .zero _ => True
  | .finite _ m e _ => 2 ^ 52 ≤ m ∧ m < 2 ^ 53 ∧ -1074 ≤ e ∧ e ≤ 971
  | .infinity _ | .notANumber => False

/-- A number other than zero is positive in size. -/
theorem magnitude_pos {m : Nat} (hm : 0 < m) (e : Int) : (0 : ℚ) < m * 2 ^ e := by positivity

/-- Magnitudes of 53 bits compare as their exponents, and then as their mantissas do. -/
theorem compare_magnitude {m₁ m₂ : Nat} (e₁ e₂ : Int) (h₁ : 2 ^ 52 ≤ m₁ ∧ m₁ < 2 ^ 53)
    (h₂ : 2 ^ 52 ≤ m₂ ∧ m₂ < 2 ^ 53) :
    (compare e₁ e₂).then (compare m₁ m₂) =
      compare ((m₁ : ℚ) * 2 ^ e₁) ((m₂ : ℚ) * 2 ^ e₂) := by
  -- of two normal numbers the one with the smaller exponent is smaller
  have hless : ∀ {m n : Nat} {e f : Int}, m < 2 ^ 53 → 2 ^ 52 ≤ n → e < f →
      (m : ℚ) * 2 ^ e < (n : ℚ) * 2 ^ f := by
    intro m n e f hm hn hef
    have hm' : (m : ℚ) < 2 ^ (53 : Int) := by exact_mod_cast hm
    have hn' : (2 : ℚ) ^ (52 : Int) ≤ n := by exact_mod_cast hn
    have hpow : (2 : ℚ) ^ (53 + e) ≤ 2 ^ (52 + f) := zpow_le_zpow_right₀ (by norm_num) (by omega)
    calc (m : ℚ) * 2 ^ e < 2 ^ (53 : Int) * 2 ^ e := by gcongr
      _ = 2 ^ (53 + e) := (zpow_add₀ two_ne_zero _ _).symm
      _ ≤ 2 ^ (52 + f) := hpow
      _ = 2 ^ (52 : Int) * 2 ^ f := zpow_add₀ two_ne_zero _ _
      _ ≤ (n : ℚ) * 2 ^ f := by gcongr
  -- the exponents decide, and between equal ones the mantissas do
  rcases lt_trichotomy e₁ e₂ with hlt | rfl | hgt
  · rw [compare_lt_iff_lt.mpr hlt, compare_lt_iff_lt.mpr (hless h₁.2 h₂.1 hlt)]
    rfl
  · have hpos : (0 : ℚ) < 2 ^ e₁ := by positivity
    rw [compare_eq_iff_eq.mpr rfl]
    rcases lt_trichotomy m₁ m₂ with hlt | rfl | hgt
    · have hlt' : (m₁ : ℚ) < m₂ := by exact_mod_cast hlt
      rw [compare_lt_iff_lt.mpr hlt, compare_lt_iff_lt.mpr (mul_lt_mul_of_pos_right hlt' hpos)]
      rfl
    · rw [compare_eq_iff_eq.mpr rfl, compare_eq_iff_eq.mpr rfl]
      rfl
    · have hgt' : (m₂ : ℚ) < m₁ := by exact_mod_cast hgt
      rw [compare_gt_iff_gt.mpr hgt, compare_gt_iff_gt.mpr (mul_lt_mul_of_pos_right hgt' hpos)]
      rfl
  · rw [compare_gt_iff_gt.mpr hgt, compare_gt_iff_gt.mpr (hless h₂.2 h₁.1 hgt)]
    rfl

/-- Doubles of 53 bits compare as what they stand for. -/
theorem compare_of_isNormal : ∀ {f g : UnpackedFloat}, IsNormal f → IsNormal g →
    f.compare g = some (compare (value f) (value g))
  | .zero _, .zero _, _, _ => congrArg some (compare_eq_iff_eq.mpr rfl).symm
  | .zero _, .finite .positive _ e hm, _, _ =>
    congrArg some (compare_lt_iff_lt.mpr (magnitude_pos hm e)).symm
  | .zero _, .finite .negative _ e hm, _, _ =>
    congrArg some (compare_gt_iff_gt.mpr (neg_neg_of_pos (magnitude_pos hm e))).symm
  | .finite .positive _ e hm, .zero _, _, _ =>
    congrArg some (compare_gt_iff_gt.mpr (magnitude_pos hm e)).symm
  | .finite .negative _ e hm, .zero _, _, _ =>
    congrArg some (compare_lt_iff_lt.mpr (neg_neg_of_pos (magnitude_pos hm e))).symm
  | .finite .positive _ e₁ h₁, .finite .negative _ e₂ h₂, _, _ =>
    congrArg some (compare_gt_iff_gt.mpr
      ((neg_neg_of_pos (magnitude_pos h₂ e₂)).trans (magnitude_pos h₁ e₁))).symm
  | .finite .negative _ e₁ h₁, .finite .positive _ e₂ h₂, _, _ =>
    congrArg some (compare_lt_iff_lt.mpr
      ((neg_neg_of_pos (magnitude_pos h₁ e₁)).trans (magnitude_pos h₂ e₂))).symm
  | .finite .positive _ _ _, .finite .positive _ _ _, hf, hg =>
    congrArg some (compare_magnitude _ _ ⟨hf.1, hf.2.1⟩ ⟨hg.1, hg.2.1⟩)
  | .finite .negative _ e₁ _, .finite .negative _ e₂ _, hf, hg => by
    have h := compare_magnitude e₁ e₂ ⟨hf.1, hf.2.1⟩ ⟨hg.1, hg.2.1⟩
    change some (Ordering.swap _) = some (compare (-_) (-_))
    rw [h, ← cmp_eq_compare, ← cmp_eq_compare, cmp_swap,
      StrictAnti.cmp_map_eq (fun _ _ hlt => neg_lt_neg hlt)]

/-! ### Packing -/

/-- The sign of what was packed. -/
theorem unpackSign_packComponents {spec : Format} {s : Sign}
    {exponent : BitVec spec.exponentBits} {mantissa : BitVec spec.mantissaBitsWithoutImplicit} :
    unpackSign (packComponents spec s exponent mantissa) = s.toBitVec := by
  refine BitVec.eq_of_getLsbD_eq fun i hi => ?_
  obtain rfl : i = 0 := by omega
  simp [unpackSign, packComponents, BitVec.getLsbD_append, BitVec.getElem_append]

/-- Taking normal components apart. -/
theorem unpack_packComponents (s : Sign) {exponent : BitVec Format.binary64.exponentBits}
    (mantissa : BitVec Format.binary64.mantissaBitsWithoutImplicit)
    (hones : exponent ≠ -1#_) (hzero : exponent ≠ 0#_) :
    unpack Format.binary64 (packComponents Format.binary64 s exponent mantissa) =
      .finite s (2 ^ 52 + mantissa.toNat) (exponent.toNat - 1075)
        (Nat.add_pos_left (by decide) _) := by
  have hsign : Sign.ofBitVec s.toBitVec = s := by cases s <;> rfl
  have hmantissa : (1#1 ++ mantissa).toNat = 2 ^ 52 + mantissa.toNat := by
    rw [BitVec.toNat_append, ← Nat.shiftLeft_add_eq_or_of_lt mantissa.isLt]
    rfl
  simp only [unpack, unpackExponent_packComponents, unpackMantissa_packComponents,
    unpackSign_packComponents, hsign, if_neg hones, if_neg hzero, hmantissa]
  rfl

/-- A double of 53 bits is the same after it has been packed. -/
theorem unpack_pack {f : UnpackedFloat} (hf : IsNormal f) : (Float.Model.pack f).unpack = f := by
  change unpack Format.binary64 (pack Format.binary64 f) = f
  cases f with
  | zero s =>
    have hsign : Sign.ofBitVec s.toBitVec = s := by cases s <;> rfl
    simp [pack, packedZero, unpack, hsign]
  | finite s m e hm =>
    obtain ⟨hlow, hhigh, hmin, hmax⟩ := hf
    -- the mantissa takes all its bits, and so the one in front is implied
    have hlog : m.log2 + 1 = 53 := by
      have h52 : 52 ≤ m.log2 := (Nat.le_log2 (by omega)).mpr hlow
      have hle : m.log2 ≤ 52 := log2_le_of_lt hhigh
      omega
    obtain ⟨b, hb⟩ : ∃ b : Nat, (e + 1023 + 52).toNat = b := ⟨_, rfl⟩
    have hpacked : pack Format.binary64 (.finite s m e hm) =
        packComponents Format.binary64 s (BitVec.ofNat 11 b) (BitVec.ofNat 52 m) := by
      change (if 2 ^ 11 ≤ (e + 1023 + 52).toNat + 1 then _
        else if m.log2 + 1 = 53 then _ else _) = _
      rw [if_neg (by omega), if_pos hlog, ← hb]
      rfl
    have hexponent : (BitVec.ofNat 11 b).toNat = b := by
      rw [BitVec.toNat_ofNat, Nat.mod_eq_of_lt (by omega)]
    have hones : BitVec.ofNat 11 b ≠ -1#11 := fun h => by
      have h' := congrArg BitVec.toNat h
      rw [hexponent] at h'
      change b = 2047 at h'
      omega
    have hzero : BitVec.ofNat 11 b ≠ 0#11 := fun h => by
      have h' := congrArg BitVec.toNat h
      rw [hexponent] at h'
      change b = 0 at h'
      omega
    have hmantissa : 2 ^ 52 + (BitVec.ofNat 52 m).toNat = m := by
      rw [BitVec.toNat_ofNat]
      omega
    have hvalue : ((BitVec.ofNat 11 b).toNat : Int) - 1075 = e := by omega
    rw [hpacked, unpack_packComponents s _ hones hzero]
    congr 1
  | infinity s => cases hf
  | notANumber => cases hf

/-! ### Rounding -/

/-- A double of 53 bits stands for a number. -/
structure HasValue (f : UnpackedFloat) (x : ℚ) : Prop where
  isNormal : IsNormal f
  value : value f = x

/-- Where there are bits enough, all but 53 are shifted out. -/
theorem shift_eq {m : Nat} {e : Int} (hm : 52 ≤ m.log2) (he : -1074 ≤ m.log2 + e - 52) :
    shiftToTargetExponent Format.binary64 m e .exact =
      (ExtendedMantissa.ofMantissaAndAccuracy m .exact >>> (m.log2 - 52),
        e + (m.log2 - 52 : Nat)) := by
  have hshift : (max (m.log2 + e - 52) (-1074) - e).toNat = m.log2 - 52 := by omega
  rw [shiftToTargetExponent, targetExponent_eq, shiftToExponent, hshift]

/-- What has been rounded stands for the nearest number of 53 bits. -/
theorem hasValue_round (s : Sign) {m : Nat} {e : Int} (hm : 52 ≤ m.log2)
    (hlow : -1074 ≤ m.log2 + e - 52) (hhigh : m.log2 + e - 52 ≤ 970) :
    HasValue (roundWithAccuracy Format.binary64 s m e .exact) (signed s (nearest m * 2 ^ e)) := by
  obtain ⟨k, hk⟩ : ∃ k, m.log2 - 52 = k := ⟨_, rfl⟩
  obtain ⟨q, hq⟩ : ∃ q, nearestQuotient k m = q := ⟨_, rfl⟩
  have hne : m ≠ 0 := fun h => by rw [h] at hm; exact absurd hm (by decide)
  have hnearest : nearest m = q * 2 ^ k := by rw [nearest, hk, hq]
  have hsplit : m.log2 = 52 + k := by omega
  have hlow' : 2 ^ 52 ≤ q := by
    have h := two_pow_log2_le_nearest hne
    rw [hnearest, hsplit, pow_add] at h
    exact Nat.le_of_mul_le_mul_right h (Nat.two_pow_pos k)
  have hhigh' : q ≤ 2 ^ 53 := by
    have h := nearest_le_two_pow m
    rw [hnearest, hsplit, show 52 + k + 1 = 53 + k by omega, pow_add] at h
    exact Nat.le_of_mul_le_mul_right h (Nat.two_pow_pos k)
  have hlog : 52 ≤ q.log2 := (Nat.le_log2 (by omega)).mpr hlow'
  -- rounding may have carried into another bit, which is zero
  obtain ⟨i, r, hi, hlog', hr⟩ : ∃ i r, q = r * 2 ^ i ∧ q.log2 = 52 + i ∧ r < 2 ^ 53 ∧
      2 ^ 52 ≤ r ∧ i ≤ 1 := by
    obtain hlt | heq := Nat.lt_or_eq_of_le hhigh'
    · have := log2_le_of_lt hlt
      exact ⟨0, q, by rw [pow_zero, Nat.mul_one], by omega, hlt, hlow', by decide⟩
    · exact ⟨1, 2 ^ 52, heq, by rw [heq]; decide +kernel, by decide, le_rfl, le_rfl⟩
  have hmantissa : (ExtendedMantissa.ofMantissaAndAccuracy q .exact >>> i).mantissa = r := by
    rw [mantissa_shiftRight, mantissa_ofMantissaAndAccuracy, hi,
      Nat.mul_div_cancel _ (Nat.two_pow_pos i)]
  have hround : roundWithAccuracy Format.binary64 s m e .exact =
      .finite s r (e + k + i) (by omega) := by
    have hfirst := shift_eq hm hlow
    have hsecond := shift_eq (e := e + k) hlog (by omega)
    rw [hk] at hfirst
    rw [show q.log2 - 52 = i by omega] at hsecond
    simp only [roundWithAccuracy, hfirst, roundedMantissa_shiftRight, hq, hsecond, hmantissa]
    exact dif_neg (by omega)
  rw [hround]
  refine ⟨⟨hr.2.1, hr.1, by omega, by omega⟩, congrArg (signed s) ?_⟩
  rw [hnearest, hi, zpow_add₀ two_ne_zero, zpow_add₀ two_ne_zero, zpow_natCast, zpow_natCast]
  push_cast
  ring

/-! ### Doubles of integers -/

/-- The value of a number with its sign changed. -/
theorem HasValue.neg {f : UnpackedFloat} {x : ℚ} (hf : HasValue f x) : HasValue f.neg (-x) := by
  obtain ⟨hnormal, rfl⟩ := hf
  cases f with
  | zero s => exact ⟨trivial, neg_zero.symm⟩
  | finite s m e hm =>
    refine ⟨hnormal, ?_⟩
    cases s with
    | negative => exact (neg_neg _).symm
    | positive => rfl
  | infinity s => cases hnormal
  | notANumber => cases hnormal

/-- The product with one stands for the same number. -/
theorem HasValue.mul_one {f : UnpackedFloat} {x : ℚ} (hf : HasValue f x) (hsmall : Canonical 1 f)
    (h1 : 0 < 2 ^ 52) :
    HasValue (mul Format.binary64 f (.finite .positive (2 ^ 52) (-52) h1)) x := by
  obtain ⟨hnormal, rfl⟩ := hf
  cases f with
  | zero s => exact ⟨trivial, rfl⟩
  | finite s m e hm =>
    obtain ⟨hlow, hhigh, hmin, -⟩ := hnormal
    -- the number is not changed by a shift that rounding takes back
    have he : e ≤ 1 := hsmall.2
    have hlog : m.log2 = 52 := by
      have h52 : 52 ≤ m.log2 := (Nat.le_log2 (by omega)).mpr hlow
      have hle : m.log2 ≤ 52 := log2_le_of_lt hhigh
      omega
    have hlog' := log2_mul_two_pow hm.ne' 52
    have hround := hasValue_round (s * .positive) (m := m * 2 ^ 52) (e := e + -52) (by omega)
      (by omega) (by omega)
    have hsign : s * .positive = s := by cases s <;> rfl
    have hvalue : (nearest (m * 2 ^ 52) : ℚ) * 2 ^ (e + -52) = m * 2 ^ e := by
      rw [nearest_mul_two_pow, nearest_eq_self hhigh.le, zpow_add₀ two_ne_zero]
      push_cast
      norm_num
      ring
    rw [hsign, hvalue] at hround
    change HasValue (roundWithAccuracy Format.binary64 (s * .positive) _ _ .exact) _
    rw [hsign]
    exact hround
  | infinity s => cases hnormal
  | notANumber => cases hnormal

/-- A number of 53 bits is the value of its double. -/
theorem hasValue_toFloat {n : Nat} (hn : n < 2 ^ 53) :
    HasValue n.toUInt64.toFloat.toModel.unpack n := by
  have hnat : n.toUInt64.toNat = n := by
    rw [Nat.toUInt64, UInt64.toNat_ofNat']
    exact Nat.mod_eq_of_lt (hn.trans (by decide))
  change HasValue (Float.Model.pack
    (UnpackedFloat.normalize Format.binary64 n.toUInt64.toNat 0 .positive)).unpack n
  rw [hnat]
  -- the conversion goes through an unsigned integer, which is in range
  suffices h : HasValue (UnpackedFloat.normalize Format.binary64 n 0 .positive) n by
    rw [unpack_pack h.isNormal]
    exact h
  obtain rfl | hpos := Nat.eq_zero_or_pos n
  · exact ⟨trivial, Nat.cast_zero.symm⟩
  have hlog : n.log2 ≤ 52 := log2_le_of_lt hn
  obtain ⟨k, hk⟩ : ∃ k, 52 - n.log2 = k := ⟨_, rfl⟩
  have hlog' := log2_mul_two_pow hpos.ne' k
  have hround := hasValue_round .positive (m := n * 2 ^ k) (e := 0 - k) (by omega) (by omega)
    (by omega)
  have hvalue : (nearest (n * 2 ^ k) : ℚ) * 2 ^ (0 - k : Int) = n := by
    rw [nearest_mul_two_pow, nearest_eq_self hn.le, zero_sub, zpow_neg, zpow_natCast]
    push_cast
    rw [mul_assoc, mul_inv_cancel₀ (by positivity), mul_one]
  have hround' : HasValue (roundWithAccuracy Format.binary64 .positive (n * 2 ^ k) (0 - k) .exact)
      n := by
    rw [hvalue] at hround
    exact hround
  have hdecrease : decreaseExponent n 0 (Format.binary64.targetExponent (totalExponent n 0)) =
      (n * 2 ^ k, (0 : Int) - k) := by
    -- the mantissa is shifted up until it takes all its bits
    have hshift : (0 - max (n.log2 + 0 - 52 : Int) (-1074)).toNat = k := by omega
    rw [targetExponent_eq, decreaseExponent, hshift, Nat.shiftLeft_eq]
  have hcompare : compare (n : Int) 0 = .gt := compare_gt_iff_gt.mpr (by omega)
  simpa only [UnpackedFloat.normalize, hcompare, UnpackedFloat.round, Int.toNat_natCast,
    hdecrease] using hround'

/-- The double of a number has the value of the nearest number of 53 bits. -/
theorem hasValue_ofNat {n : Nat} (hn : n ≤ 2 ^ 63) :
    HasValue (Float.ofNat n).toModel.unpack (nearest n) := by
  change HasValue (Float.ofScientific n false 0).toModel.unpack _
  unfold Float.ofScientific
  split
  -- a small integer is exact and multiplied by one, and a large one is rounded from more bits
  · rename_i hsmall
    have hone : (getElem Float.exactlyRepresentablePowersOfTen 0 (by decide)).toModel.unpack =
        .finite .positive (2 ^ 52) (-52) (by decide) := rfl
    have hvalue := (hasValue_toFloat hsmall.1).mul_one (canonical_toFloat hsmall.1) (by decide)
    rw [nearest_eq_self hsmall.1.le]
    change HasValue (Float.Model.pack (mul Format.binary64 n.toUInt64.toFloat.toModel.unpack
      (getElem Float.exactlyRepresentablePowersOfTen 0 (by decide)).toModel.unpack)).unpack _
    rw [hone, unpack_pack hvalue.isNormal]
    exact hvalue
  · rename_i hlarge
    have hne : n ≠ 0 := by omega
    have hlog : 53 ≤ n.log2 := (Nat.le_log2 hne).mpr (by omega)
    have hlog' : n.log2 < 64 := (Nat.log2_lt hne).mpr (hn.trans_lt (by decide))
    have hshift := log2_mul_two_pow hne 53
    have hround := hasValue_round .positive (m := n * 2 ^ 53) (e := -53) (by omega) (by omega)
      (by omega)
    have hvalue : (nearest (n * 2 ^ 53) : ℚ) * 2 ^ (-53 : Int) = nearest n := by
      rw [nearest_mul_two_pow]
      push_cast
      rw [mul_assoc]
      norm_num
    rw [hvalue] at hround
    have hproduct : UnpackedFloat.ofScientific Format.binary64 n 0 =
        roundWithAccuracy Format.binary64 .positive (n * 2 ^ 53) (-53) .exact := by
      unfold UnpackedFloat.ofScientific
      rw [dif_neg hne, if_neg (by decide), if_neg (show ¬(0 : Int) < -((2 ^ 11 : Int) + n.log2) by omega),
        if_pos le_rfl]
      change roundWithAccuracy Format.binary64 .positive (n <<< 53 * 1) (-53 + 0) .exact = _
      rw [Nat.shiftLeft_eq, Nat.mul_one, Int.add_zero]
    change HasValue (Float.Model.pack (UnpackedFloat.ofScientific Format.binary64 n 0)).unpack _
    rw [hproduct, unpack_pack hround.isNormal]
    exact hround

end Rounding

/-! ### Fixnums -/

namespace Fixnum

open Rounding

/-- A fixnum rounded to 53 bits. -/
def rounded (i : Fixnum) : Int := i.val.sign * nearest i.val.natAbs

/-- A fixnum is bounded in size. -/
theorem natAbs_le (i : Fixnum) : i.val.natAbs ≤ 2 ^ 63 := by
  have := i.inRange
  omega

/-- The double of a fixnum stands for the rounded integer. -/
theorem hasValue_toFloat (i : Fixnum) : HasValue i.toFloat.toModel.unpack i.rounded := by
  have hnat := hasValue_ofNat i.natAbs_le
  rw [toFloat, rounded]
  generalize i.val = x at *
  -- a negative integer is converted as its size with the sign changed
  cases x with
  | ofNat n =>
    have hvalue : (((Int.ofNat n).sign * nearest n : Int) : ℚ) = nearest n := by
      cases n with
      | zero => simp [nearest_eq_self]
      | succ n => simp
    change HasValue (Float.ofNat n).toModel.unpack (((Int.ofNat n).sign * nearest n : Int) : ℚ)
    rw [hvalue]
    exact hnat
  | negSucc n =>
    have hvalue : (((Int.negSucc n).sign * nearest (n + 1) : Int) : ℚ) = -nearest (n + 1) := by
      rw [Int.sign_negSucc]
      push_cast
      ring
    have hneg : HasValue (Float.ofNat (n + 1)).toModel.unpack.neg (-nearest (n + 1)) := hnat.neg
    change HasValue (Float.Model.pack (Float.ofNat (n + 1)).toModel.unpack.neg).unpack
      (((Int.negSucc n).sign * nearest (n + 1) : Int) : ℚ)
    rw [hvalue, unpack_pack hneg.isNormal]
    exact hneg

/-- The doubles of fixnums compare as the rounded integers. -/
theorem compare_toFloat (i j : Fixnum) :
    i.toFloat.toModel.unpack.compare j.toFloat.toModel.unpack =
      some (compare i.rounded j.rounded) := by
  have hi := i.hasValue_toFloat
  have hj := j.hasValue_toFloat
  rw [compare_of_isNormal hi.isNormal hj.isNormal, hi.value, hj.value, ← cmp_eq_compare,
    ← cmp_eq_compare, Int.cast_strictMono.cmp_map_eq]

/-- Integers are equal as doubles if they round to the same number. -/
theorem toFloat_beq_toFloat {i j : Fixnum} :
    (i.toFloat == j.toFloat) = true ↔ i.rounded = j.rounded := by
  change (UnpackedFloat.compare _ _ == some .eq) = true ↔ _
  rw [compare_toFloat, beq_iff_eq, Option.some.injEq, compare_eq_iff_eq]

/-- Integers are in order as doubles if they are once rounded. -/
theorem toFloat_lt_toFloat {i j : Fixnum} : i.toFloat < j.toFloat ↔ i.rounded < j.rounded := by
  have hmodel : i.toFloat < j.toFloat ↔
      (i.toFloat.toModel.unpack.compare j.toFloat.toModel.unpack == some .lt) = true :=
    decide_eq_true_iff
  rw [hmodel, compare_toFloat, beq_iff_eq, Option.some.injEq, compare_lt_iff_lt]

/-- Integers are in order as doubles, or equal, if they are once rounded. -/
theorem toFloat_le_toFloat {i j : Fixnum} : i.toFloat ≤ j.toFloat ↔ i.rounded ≤ j.rounded := by
  have hmodel : i.toFloat ≤ j.toFloat ↔
      (i.toFloat.toModel.unpack.compare j.toFloat.toModel.unpack).any (·.isLE) = true :=
    decide_eq_true_iff
  rw [hmodel, compare_toFloat, Option.any_some, Std.isLE_compare]

/-- Rounding keeps the order. -/
theorem rounded_le_rounded {i j : Fixnum} (h : i.val ≤ j.val) : i.rounded ≤ j.rounded := by
  unfold rounded
  generalize i.val = x at *
  generalize j.val = y at *
  -- the signs decide, and between equal ones the sizes do
  rcases lt_trichotomy x 0 with hx | rfl | hx <;> rcases lt_trichotomy y 0 with hy | rfl | hy
  · have := nearest_mono (m := y.natAbs) (n := x.natAbs) (by omega)
    rw [Int.sign_eq_neg_one_of_neg hx, Int.sign_eq_neg_one_of_neg hy]
    omega
  · rw [Int.sign_eq_neg_one_of_neg hx, Int.sign_zero]
    omega
  · rw [Int.sign_eq_neg_one_of_neg hx, Int.sign_eq_one_of_pos hy]
    omega
  · omega
  · exact le_rfl
  · rw [Int.sign_zero, Int.sign_eq_one_of_pos hy]
    omega
  · omega
  · omega
  · have := nearest_mono (m := x.natAbs) (n := y.natAbs) (by omega)
    rw [Int.sign_eq_one_of_pos hx, Int.sign_eq_one_of_pos hy]
    omega

/-- An integer of up to 53 bits is exact as a double. -/
theorem rounded_eq_val {i : Fixnum} (h : i.val.natAbs ≤ 2 ^ 53) : i.rounded = i.val := by
  rw [rounded, nearest_eq_self h, Int.sign_mul_natAbs]

end Fixnum
end Crossing
