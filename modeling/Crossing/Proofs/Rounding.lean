import Crossing.Number.Reading
import Mathlib

/-!
# Rounding decimals

A decimal below the middle between the largest double and `2 ^ 1024` is rounded to a finite
double. Doubles are followed to their logical model: zero, or a mantissa and an exponent, rounded
and packed into bits.

- `atMost_roundWithAccuracy`: rounding keeps a magnitude below its power of two, where it is
  below by more than half a unit in the last place;
- `canonical_unpack`, `unpackExponent_pack`: what is packed and taken apart again is finite, as
  long as the exponent fits;
- `atMost_mul`, `atMost_div`: the bounds for products and quotients;
- `isFinite_roundDecimal`: the bound for `roundDecimal`.
-/

namespace Crossing

open Float.Model.UnpackedFloat
open Float.Model (UnpackedFloat Format totalExponent)

namespace Rounding

/-! ### Shifts -/

/-- To shift a mantissa is to divide it, with the remainder in the bits for rounding. -/
theorem mantissa_shiftRight (em : ExtendedMantissa) (n : Nat) :
    (em >>> n).mantissa = em.mantissa / 2 ^ n := by
  induction n with
  | zero => simp [HShiftRight.hShiftRight, Nat.repeat]
  | succ n ih =>
    change (em >>> n).mantissa / 2 = _
    rw [ih, Nat.div_div_eq_div_mul, pow_succ]

/-- The bit for rounding is the last one that was shifted out. -/
theorem roundBit_shiftRight (em : ExtendedMantissa) (n : Nat) :
    (em >>> (n + 1)).roundBit = (em.mantissa / 2 ^ n % 2 != 0) := by
  change ((em >>> n).mantissa % 2 != 0) = _
  rw [mantissa_shiftRight]

/-- Rounding adds one at most, and only if the bit for rounding is set. -/
theorem roundedMantissa_le (em : ExtendedMantissa) :
    em.roundedMantissa ≤ em.mantissa + em.roundBit.toNat := by
  obtain ⟨m, _ | _, _ | _⟩ := em
  all_goals simp [ExtendedMantissa.roundedMantissa, ExtendedMantissa.accuracy,
    Accuracy.roundToNearestEven]
  omega

/-- A mantissa with its accuracy is that mantissa. -/
theorem mantissa_ofMantissaAndAccuracy (m : Nat) (a : Accuracy) :
    (ExtendedMantissa.ofMantissaAndAccuracy m a).mantissa = m := by
  obtain _ | _ | _ | _ := a <;> rfl

/-- The exponent that a number is rounded to: it leaves 53 bits, unless that is below the
smallest one. -/
theorem targetExponent_eq (m : Nat) (e : Int) :
    Format.binary64.targetExponent (totalExponent m e) = max (m.log2 + e - 52) (-1074) := by
  simp only [Format.targetExponent, totalExponent, Format.mantissaBits, Format.minExponent]
  norm_num
  omega

/-! ### Rounding to a bound -/

/-- Zero, or finite with an exponent up to `b`. -/
def AtMost (b : Int) : UnpackedFloat → Prop
  | .zero _ => True
  | .finite _ _ e _ => e ≤ b
  | .infinity _ | .notANumber => False

/-- The sign does not matter to the size. -/
theorem AtMost.neg {b : Int} {f : UnpackedFloat} (h : AtMost b f) : AtMost b f.neg := by
  cases f with
  | zero s => trivial
  | finite s m e hm => exact h
  | infinity s => exact h
  | notANumber => exact h

/-- The first shift of rounding leaves no more bits than a mantissa has. -/
theorem exists_shift (m : Nat) (e : Int) (a : Accuracy) :
    ∃ n : Nat, shiftToTargetExponent Format.binary64 m e a =
        (ExtendedMantissa.ofMantissaAndAccuracy m a >>> n, e + n) ∧
      m.log2 ≤ 52 + n ∧ (n = 0 ∨ e + n = max (m.log2 + e - 52) (-1074)) := by
  refine ⟨(max (m.log2 + e - 52) (-1074) - e).toNat, ?_, by omega, by omega⟩
  rw [shiftToTargetExponent, targetExponent_eq, shiftToExponent]

/-- A number is small if its mantissa is, once it is shifted to where it is rounded. -/
theorem atMost_roundWithAccuracy_of_shift {s : Sign} {m : Nat} {b e e₁ : Int} {a : Accuracy}
    {em : ExtendedMantissa} (hshift : shiftToTargetExponent Format.binary64 m e a = (em, e₁))
    (hb : -1074 ≤ b) (he : e₁ ≤ b) (hr : em.roundedMantissa.log2 + e₁ ≤ b + 52) :
    AtMost b (roundWithAccuracy Format.binary64 s m e a) := by
  obtain ⟨n, hsecond, -, hn⟩ := exists_shift em.roundedMantissa e₁ .exact
  simp only [roundWithAccuracy, hshift, hsecond]
  split
  · trivial
  · change e₁ + n ≤ b
    omega

/-- A number with few bits more than the format has is below the bound when they are shifted
out. -/
theorem div_two_pow_lt {m n : Nat} (h : m.log2 ≤ 52 + n) : m / 2 ^ n < 2 ^ 53 := by
  have hlog : m < 2 ^ (m.log2 + 1) := Nat.lt_log2_self
  have hpow : 2 ^ (m.log2 + 1) ≤ 2 ^ (53 + n) := Nat.pow_le_pow_right (by decide) (by omega)
  rw [Nat.div_lt_iff_lt_mul (by positivity), ← pow_add]
  exact lt_of_lt_of_le hlog hpow

/-- The bits of a number below a power of two. -/
theorem log2_le_of_lt {n k : Nat} (h : n < 2 ^ (k + 1)) : n.log2 ≤ k := by
  by_cases hn : n = 0
  · simp [hn]
  · exact Nat.le_of_lt_succ ((Nat.log2_lt hn).mpr h)

/-- A magnitude below `2 ^ (b + 53)` by more than half a unit in the last place stays below when
it is rounded. -/
theorem atMost_roundWithAccuracy (s : Sign) (a : Accuracy) {m : Nat} {b e : Int}
    (hb : -1074 ≤ b) (he : e < b) (hm : m < (2 ^ 54 - 1) * 2 ^ (b - 1 - e).toNat) :
    AtMost b (roundWithAccuracy Format.binary64 s m e a) := by
  obtain ⟨n, hshift, hlog, hn⟩ := exists_shift m e a
  have hrounded := roundedMantissa_le (ExtendedMantissa.ofMantissaAndAccuracy m a >>> n)
  rw [mantissa_shiftRight, mantissa_ofMantissaAndAccuracy] at hrounded
  have hbits : m.log2 + e ≤ b + 52 := by
    have hpow : m < 2 ^ (53 + (b - 1 - e).toNat + 1) := by
      rw [show 53 + (b - 1 - e).toNat + 1 = 54 + (b - 1 - e).toNat by omega, pow_add]
      exact lt_of_lt_of_le hm (Nat.mul_le_mul_right _ (by decide))
    have := log2_le_of_lt hpow
    omega
  refine atMost_roundWithAccuracy_of_shift hshift hb (by omega) ?_
  by_cases hlast : e + n = b
  · -- The last binade: the bit that is rounded off cannot carry over all the others.
    obtain ⟨n, rfl⟩ : ∃ k, n = k + 1 := ⟨n - 1, by omega⟩
    have hquotient : m / 2 ^ n < 2 ^ 54 - 1 := by
      rw [Nat.div_lt_iff_lt_mul (by positivity), show n = (b - 1 - e).toNat by omega]
      exact hm
    rw [roundBit_shiftRight, mantissa_ofMantissaAndAccuracy, pow_succ,
      ← Nat.div_div_eq_div_mul] at hrounded
    have hsmall : (ExtendedMantissa.ofMantissaAndAccuracy m a >>> (n + 1)).roundedMantissa <
        2 ^ (52 + 1) := by
      generalize m / 2 ^ n = q at hrounded hquotient
      rcases Nat.mod_two_eq_zero_or_one q with hq | hq
      · simp only [hq, bne_self_eq_false, Bool.toNat_false] at hrounded
        omega
      · simp only [hq, show (1 != 0) = true from rfl, Bool.toNat_true] at hrounded
        omega
    have := log2_le_of_lt hsmall
    omega
  · have hquotient := div_two_pow_lt hlog
    have hbit := Bool.toNat_le (ExtendedMantissa.ofMantissaAndAccuracy m a >>> n).roundBit
    have hsmall : (ExtendedMantissa.ofMantissaAndAccuracy m a >>> n).roundedMantissa <
        2 ^ (53 + 1) := by omega
    have := log2_le_of_lt hsmall
    omega

/-! ### Bits -/

/-- Zero, or finite with a mantissa of 53 bits and an exponent up to `b`. -/
def Canonical (b : Int) : UnpackedFloat → Prop
  | .zero _ => True
  | .finite _ m e _ => m < 2 ^ 53 ∧ e ≤ b
  | .infinity _ | .notANumber => False

theorem Canonical.mono {b c : Int} (hbc : b ≤ c) {f : UnpackedFloat} (h : Canonical b f) :
    Canonical c f := by
  cases f with
  | zero s => trivial
  | finite s m e hm => exact ⟨h.1, h.2.trans hbc⟩
  | infinity s => exact h
  | notANumber => exact h

/-- A number in the form of the format is as small as the bound on its exponent says. -/
theorem Canonical.atMost {b : Int} {f : UnpackedFloat} (h : Canonical b f) : AtMost b f := by
  cases f with
  | zero s => trivial
  | finite s m e hm => exact h.2
  | infinity s => exact h
  | notANumber => exact h

/-- A number in the form of the format is finite. -/
theorem Canonical.isFinite {b : Int} {f : UnpackedFloat} (h : Canonical b f) :
    f.isFinite = true := by
  cases f with
  | zero s => rfl
  | finite s m e hm => rfl
  | infinity s => cases h
  | notANumber => cases h

/-- Bits that are neither infinite nor not a number, taken apart. -/
theorem canonical_unpack {bits : BitVec Format.binary64.numBits}
    (h : unpackExponent bits ≠ -1#_) :
    Canonical (max ((unpackExponent bits).toNat - 1075) (-1074))
      (unpack Format.binary64 bits) := by
  have hmantissa : (unpackMantissa bits).toNat < 2 ^ 52 := (unpackMantissa bits).isLt
  simp only [unpack, if_neg h]
  split
  · rename_i hzero
    split
    · trivial
    · refine ⟨hmantissa.trans (by decide), ?_⟩
      change ((unpackExponent bits).toNat : Int) - 1075 + 1 ≤ _
      have : (unpackExponent bits).toNat = 0 := by rw [hzero]; rfl
      omega
  · refine ⟨?_, le_max_left ((unpackExponent bits).toNat - 1075 : Int) _⟩
    rw [BitVec.toNat_append, ← Nat.shiftLeft_add_eq_or_of_lt hmantissa]
    change 2 ^ 52 + (unpackMantissa bits).toNat < 2 ^ 53
    omega

/-- The exponent field of a packed number. A number within the largest exponent does not
have the field of an infinity. -/
theorem unpackExponent_pack {f : UnpackedFloat} {b : Int} (h : AtMost b f) (hb : b ≤ 971) :
    unpackExponent (pack Format.binary64 f) ≠ -1#_ ∧
      ((unpackExponent (pack Format.binary64 f)).toNat : Int) ≤ max (b + 1075) 0 := by
  cases f with
  | zero s => simp [pack, packedZero]
  | finite s m e hm =>
    change e ≤ b at h
    -- the exponent is not that of an infinity
    have hfits : ¬2 ^ Format.binary64.exponentBits ≤ (e + Format.binary64.exponentBias +
        Format.binary64.mantissaBitsWithoutImplicit).toNat + 1 := by
      change ¬2 ^ 11 ≤ (e + 1023 + 52).toNat + 1
      omega
    simp only [pack, if_neg hfits]
    -- a number that is too small for its exponent is packed without the bit in front
    split
    · have hexponent : (BitVec.ofNat 11 (e + 1023 + 52).toNat).toNat = (e + 1023 + 52).toNat := by
        rw [BitVec.toNat_ofNat, Nat.mod_eq_of_lt (by omega)]
      rw [unpackExponent_packComponents]
      change BitVec.ofNat 11 (e + 1023 + 52).toNat ≠ -1#11 ∧
        ((BitVec.ofNat 11 (e + 1023 + 52).toNat).toNat : Int) ≤ max (b + 1075) 0
      refine ⟨fun hones => ?_, by omega⟩
      have := congrArg BitVec.toNat hones
      rw [hexponent] at this
      change (e + 1023 + 52).toNat = 2047 at this
      omega
    · rw [unpackExponent_packComponents]
      exact ⟨by decide, by simp⟩
  | infinity s => cases h
  | notANumber => cases h

/-- The exponent field is cut out of the bits. -/
theorem toNat_unpackExponent (bits : BitVec Format.binary64.numBits) :
    (unpackExponent bits).toNat = bits.toNat / 2 ^ 52 % 2 ^ 11 := by
  rw [unpackExponent, BitVec.toNat_cast, BitVec.extractLsb_toNat, Nat.shiftRight_eq_div_pow]
  rfl

/-! ### Operations that stay finite -/

/-- A packed number that is unpacked is in the form of the format. -/
theorem canonical_unpack_pack {f : UnpackedFloat} {b : Int} (h : AtMost b f) (hb : b ≤ 971) :
    Canonical (max b (-1074)) (Float.Model.pack f).unpack := by
  obtain ⟨hfinite, hexponent⟩ := unpackExponent_pack h hb
  exact (canonical_unpack hfinite).mono (by omega)

/-- A number within the largest exponent is finite as a double. -/
theorem isFinite_ofModel_pack {f : UnpackedFloat} (h : AtMost 971 f) :
    (Float.ofModel (Float.Model.pack f)).isFinite = true :=
  (canonical_unpack_pack h le_rfl).isFinite

/-- A finite double does not have the field of an infinity. -/
theorem unpackExponent_of_isFinite {x : Float} (h : x.isFinite = true) :
    @unpackExponent Format.binary64 x.toBits.toBitVec ≠ -1#_ := by
  intro hones
  change (unpack Format.binary64 x.toBits.toBitVec).isFinite = true at h
  simp only [unpack, if_pos hones] at h
  split at h <;> cases h

/-- A finite double is in the form of the format. -/
theorem canonical_of_isFinite {x : Float} (h : x.isFinite = true) :
    Canonical 971 x.toModel.unpack := by
  have hfield := unpackExponent_of_isFinite h
  refine (canonical_unpack hfield).mono ?_
  have hlt : (@unpackExponent Format.binary64 x.toBits.toBitVec).toNat < 2 ^ 11 :=
    (unpackExponent _).isLt
  have hne : (@unpackExponent Format.binary64 x.toBits.toBitVec).toNat ≠ 2047 :=
    fun h => hfield (BitVec.eq_of_toNat_eq h)
  change max (((@unpackExponent Format.binary64 x.toBits.toBitVec).toNat : Int) - 1075)
    (-1074) ≤ 971
  omega

/-- A finite double stays so with its sign changed. -/
theorem isFinite_neg {x : Float} (h : x.isFinite = true) : (-x).isFinite = true := by
  change (Float.ofModel (Float.Model.pack x.toModel.unpack.neg)).isFinite = true
  exact isFinite_ofModel_pack (canonical_of_isFinite h).atMost.neg

/-- A product is small if that of the mantissas is. -/
theorem atMost_mul (s₁ s₂ : Sign) {m₁ m₂ : Nat} {b e₁ e₂ : Int} (h₁ : 0 < m₁) (h₂ : 0 < m₂)
    (hb : -1074 ≤ b) (he : e₁ + e₂ < b)
    (hm : m₁ * m₂ < (2 ^ 54 - 1) * 2 ^ (b - 1 - (e₁ + e₂)).toNat) :
    AtMost b (mul Format.binary64 (.finite s₁ m₁ e₁ h₁) (.finite s₂ m₂ e₂ h₂)) :=
  atMost_roundWithAccuracy _ _ hb he hm

/-- A quotient is small if that of the mantissas is. -/
theorem atMost_div (s₁ s₂ : Sign) {m₁ m₂ : Nat} {b e₁ e₂ : Int} (h₁ : 0 < m₁) (h₂ : 0 < m₂)
    (hb : -1074 ≤ b) (he : e₁ - e₂ < b)
    (hm : m₁ < (2 ^ 54 - 1) * 2 ^ (b - 1 - (e₁ - e₂)).toNat * m₂) :
    AtMost b (div Format.binary64 (.finite s₁ m₁ e₁ h₁) (.finite s₂ m₂ e₂ h₂)) := by
  -- The quotient is taken with `shift` more bits, and that many bits later.
  obtain ⟨shift, hcore⟩ : ∃ shift : Nat, divCore Format.binary64 m₁ e₁ m₂ e₂ =
      ((m₁ <<< shift) / m₂, e₁ - e₂ - shift, accuracyOfFraction ((m₁ <<< shift) % m₂) m₂) := by
    refine ⟨(e₁ - e₂ - min (e₁ - e₂) (Format.binary64.targetExponent
      (totalExponent m₁ e₁ - totalExponent m₂ e₂))).toNat, ?_⟩
    rw [divCore]
    congr 2
    omega
  simp only [div, hcore]
  refine atMost_roundWithAccuracy _ _ hb (by omega) ?_
  rw [Nat.div_lt_iff_lt_mul h₂, Nat.shiftLeft_eq,
    show (b - 1 - (e₁ - e₂ - shift)).toNat = (b - 1 - (e₁ - e₂)).toNat + shift by omega, pow_add]
  calc m₁ * 2 ^ shift
      < (2 ^ 54 - 1) * 2 ^ (b - 1 - (e₁ - e₂)).toNat * m₂ * 2 ^ shift :=
        Nat.mul_lt_mul_of_pos_right hm (by positivity)
    _ = (2 ^ 54 - 1) * (2 ^ (b - 1 - (e₁ - e₂)).toNat * 2 ^ shift) * m₂ := by
        simp only [Nat.mul_assoc, Nat.mul_comm, Nat.mul_left_comm]

/-! ### Decimals -/

/-- The exponent of half a unit in the last place of the largest doubles. It stays folded, so
that nobody computes its power. -/
@[irreducible] def halfUnit : Nat := 970

/-- The middle between the largest double and `2 ^ 1024`: from there on magnitudes round to
infinity. -/
def overflow : Nat := (2 ^ 54 - 1) * 2 ^ halfUnit

/-- The decimal `digits * 10 ^ exponent` lies below the overflow. -/
def BelowOverflow (digits : Nat) (exponent : Int) : Prop :=
  digits * 10 ^ exponent.toNat < overflow * 10 ^ (-exponent).toNat

/-- A decimal below the overflow is read within the largest exponent. The cases are the
signs of its exponent. -/
theorem atMost_ofScientific {n : Nat} {e : Int} (h : BelowOverflow n e) (he : e ≤ 310) :
    AtMost 971 (ofScientific Format.binary64 n e) := by
  unfold BelowOverflow overflow at h
  unfold ofScientific
  -- the special cases: zero, a number too small, and then the two signs of the exponent
  split
  · trivial
  rw [if_neg (show ¬e > 2 ^ Format.binary64.exponentBits by change ¬e > 2 ^ 11; omega)]
  split
  · trivial
  split
  -- an exponent makes a product, and digits behind the point make a quotient
  · rename_i hpos
    obtain ⟨k, rfl⟩ := Int.eq_ofNat_of_zero_le hpos
    refine atMost_mul _ _ _ _ (by decide) (by decide) ?_
    have hbits : (971 - 1 - (-(Format.binary64.mantissaBits : Int) + 0)).toNat = halfUnit + 53 := by
      rw [halfUnit]
      rfl
    have hshift : n <<< Format.binary64.mantissaBits = n * 2 ^ 53 := Nat.shiftLeft_eq n 53
    rw [show (-(k : Int)).toNat = 0 by omega, pow_zero, Nat.mul_one, Int.toNat_natCast] at h
    rw [hbits, hshift, pow_add, Int.toNat_natCast, ← Nat.mul_assoc (2 ^ 54 - 1),
      Nat.mul_right_comm]
    exact Nat.mul_lt_mul_of_pos_right h (by decide)
  · rename_i hneg
    refine atMost_div _ _ _ _ (by decide) (by decide) ?_
    have hbits : (971 - 1 - (0 - 0) : Int).toNat = halfUnit := by
      rw [halfUnit]
      rfl
    rw [Int.toNat_of_nonpos (by omega), pow_zero, Nat.mul_one] at h
    rw [hbits]
    exact h

/-- Finite, and neither large nor small. -/
def isModerate : UnpackedFloat → Bool
  | .finite _ m e _ => decide (m < 2 ^ 53) && decide (-100 ≤ e) && decide (e ≤ 100)
  | _ => false

/-- A moderate number is finite, with a mantissa that fits and an exponent near zero. -/
theorem exists_of_isModerate {f : UnpackedFloat} (h : isModerate f = true) :
    ∃ s m e hm, f = .finite s m e hm ∧ m < 2 ^ 53 ∧ -100 ≤ e ∧ e ≤ 100 := by
  cases f with
  | finite s m e hm =>
    simp only [isModerate, Bool.and_eq_true, decide_eq_true_eq] at h
    exact ⟨s, m, e, hm, rfl, h.1.1, h.1.2, h.2⟩
  | zero s => cases h
  | infinity s => cases h
  | notANumber => cases h

/-- The powers of ten that are exact doubles are moderate. There are 23 of them, and each is
looked at. -/
theorem isModerate_powersOfTen :
    Float.exactlyRepresentablePowersOfTen.toList.all (fun x => isModerate x.toModel.unpack) =
      true := by
  decide +kernel

/-- A number of 53 bits, as a double. -/
theorem canonical_toFloat {n : Nat} (hn : n < 2 ^ 53) :
    Canonical 1 n.toUInt64.toFloat.toModel.unpack := by
  have hnat : n.toUInt64.toNat = n := by
    rw [Nat.toUInt64, UInt64.toNat_ofNat']
    exact Nat.mod_eq_of_lt (hn.trans (by decide))
  change Canonical 1
    (Float.Model.pack (UnpackedFloat.normalize Format.binary64 n.toUInt64.toNat 0 .positive)).unpack
  rw [hnat]
  -- the mantissa is shifted to where the format has it
  refine (canonical_unpack_pack (b := 1) ?_ (by decide)).mono (by decide)
  unfold UnpackedFloat.normalize
  split
  · rename_i hlt
    rw [compare_lt_iff_lt] at hlt
    omega
  · trivial
  · obtain ⟨k, hk⟩ : ∃ k : Nat, decreaseExponent n 0 (Format.binary64.targetExponent
        (totalExponent n 0)) = (n <<< k, (0 : Int) - k) := ⟨_, rfl⟩
    simp only [UnpackedFloat.round, Int.toNat_natCast, hk]
    refine atMost_roundWithAccuracy _ _ (by decide) (by omega) ?_
    rw [Nat.shiftLeft_eq, show (1 - 1 - (0 - k : Int)).toNat = k by omega]
    exact Nat.mul_lt_mul_of_pos_right (hn.trans (by decide)) (by positivity)

/-- A small number times a moderate one does not overflow. -/
theorem atMost_mul_moderate {f g : UnpackedFloat} (hf : Canonical 1 f)
    (hg : isModerate g = true) : AtMost 971 (mul Format.binary64 f g) := by
  obtain ⟨s₂, m₂, e₂, hpos, rfl, hm₂, hlow, hhigh⟩ := exists_of_isModerate hg
  cases f with
  | zero s => trivial
  | finite s₁ m₁ e₁ h₁ =>
    obtain ⟨hm₁, he₁⟩ := hf
    refine atMost_mul _ _ _ _ (by decide) (by omega) ?_
    calc m₁ * m₂ < 2 ^ 53 * 2 ^ 53 := Nat.mul_lt_mul'' hm₁ hm₂
      _ ≤ (2 ^ 54 - 1) * 2 ^ (971 - 1 - (e₁ + e₂)).toNat :=
        Nat.mul_le_mul (by decide) (Nat.pow_le_pow_right (by decide) (by omega))
  | infinity s => cases hf
  | notANumber => cases hf

/-- A small number by a moderate one does not overflow. -/
theorem atMost_div_moderate {f g : UnpackedFloat} (hf : Canonical 1 f)
    (hg : isModerate g = true) : AtMost 971 (div Format.binary64 f g) := by
  obtain ⟨s₂, m₂, e₂, hpos, rfl, hm₂, hlow, hhigh⟩ := exists_of_isModerate hg
  cases f with
  | zero s => trivial
  | finite s₁ m₁ e₁ h₁ =>
    obtain ⟨hm₁, he₁⟩ := hf
    refine atMost_div _ _ _ _ (by decide) (by omega) ?_
    calc m₁ < 2 ^ 53 * 1 * 1 := hm₁
      _ ≤ (2 ^ 54 - 1) * 2 ^ (971 - 1 - (e₁ - e₂)).toNat * m₂ :=
        Nat.mul_le_mul (Nat.mul_le_mul (by decide) Nat.one_le_two_pow) hpos
  | infinity s => cases hf
  | notANumber => cases hf

/-- A decimal below the overflow is finite as a double. -/
theorem isFinite_ofScientific {n : Nat} {e : Int} (h : BelowOverflow n e) (he : e ≤ 310) :
    (Float.ofScientific n (decide (e < 0)) e.natAbs).isFinite = true := by
  unfold Float.ofScientific
  split
  · rename_i hfast
    have hleft := canonical_toFloat hfast.1
    have htens := List.all_eq_true.mp isModerate_powersOfTen _ (Array.getElem_mem_toList
      (i := e.natAbs) (by simp [Float.exactlyRepresentablePowersOfTen]; omega))
    dsimp only
    -- few digits are multiplied or divided by an exact power of ten
    split
    · exact isFinite_ofModel_pack (atMost_div_moderate hleft htens)
    · exact isFinite_ofModel_pack (atMost_mul_moderate hleft htens)
  · refine isFinite_ofModel_pack ?_
    have hexponent : (if decide (e < 0) = true then Int.negOfNat e.natAbs
        else Int.ofNat e.natAbs) = e := by
      rw [Int.negOfNat_eq, Int.ofNat_eq_natCast]
      by_cases hneg : e < 0
      · rw [if_pos (decide_eq_true hneg)]
        omega
      · rw [if_neg (by simpa using hneg)]
        omega
    rw [hexponent]
    exact atMost_ofScientific h he

/-- The overflow is less than `10 ^ 310`, which bounds the exponents that matter. -/
theorem overflow_lt : overflow < 10 ^ 310 := by
  rw [overflow, halfUnit]
  decide +kernel

/-- A number is at least the power of ten with as many digits. -/
theorem pow_length_le {n : Nat} (hn : n ≠ 0) : 10 ^ ((Nat.toDigits 10 n).length - 1) ≤ n := by
  by_contra hlt
  obtain hk | hk := Nat.eq_zero_or_pos ((Nat.toDigits 10 n).length - 1)
  · rw [hk, pow_zero] at hlt
    omega
  · have hpos : 0 < (Nat.toDigits 10 n).length := Nat.length_toDigits_pos
    have := (Nat.length_toDigits_le_iff (by decide) hk).mpr (Nat.lt_of_not_le hlt)
    omega

/-- A decimal below the overflow has no more than 310 digits before its point. -/
theorem BelowOverflow.length_le {n : Nat} {e : Int} (h : BelowOverflow n e) (hn : n ≠ 0) :
    ((Nat.toDigits 10 n).length : Int) + e ≤ 310 := by
  by_contra hlarge
  have hlower := pow_length_le hn
  refine Nat.lt_irrefl (n * 10 ^ e.toNat) ?_
  calc n * 10 ^ e.toNat < overflow * 10 ^ (-e).toNat := h
    _ ≤ 10 ^ 310 * 10 ^ (-e).toNat := Nat.mul_le_mul_right _ (Nat.le_of_lt overflow_lt)
    _ = 10 ^ (310 + (-e).toNat) := (pow_add _ _ _).symm
    _ ≤ 10 ^ ((Nat.toDigits 10 n).length - 1 + e.toNat) :=
      Nat.pow_le_pow_right (by decide) (by omega)
    _ = 10 ^ ((Nat.toDigits 10 n).length - 1) * 10 ^ e.toNat := pow_add _ _ _
    _ ≤ n * 10 ^ e.toNat := Nat.mul_le_mul_right _ hlower

/-- A decimal below the overflow is rounded to a finite double. -/
theorem isFinite_roundDecimal (negative : Bool) {n : Nat} {e : Int} (h : BelowOverflow n e) :
    (roundDecimal negative n e).isFinite = true := by
  have hmagnitude : (if n = 0 then (0.0 : Float)
      else if 310 < ((Nat.toDigits 10 n).length : Int) + e then 1.0 / 0.0
      else if ((Nat.toDigits 10 n).length : Int) + e < -330 then 0.0
      else Float.ofScientific n (decide (e < 0)) e.natAbs).isFinite = true := by
    -- zero and exponents far out have results of their own
    split
    · decide +kernel
    rename_i hn
    have hlength := h.length_le hn
    rw [if_neg (by omega)]
    split
    · decide +kernel
    · exact isFinite_ofScientific h (by omega)
  rw [roundDecimal]
  split
  · exact isFinite_neg hmagnitude
  · exact hmagnitude

end Rounding
end Crossing
