import Crossing.Number.Layout
import Crossing.Proofs.Renderings
import Crossing.Proofs.Rounding

/-!
# Texts of doubles

The text in which a finite double crosses is a number to its reader: every decimal in the
interval of a finite double lies below the overflow, so that the reading is finite again.

- `Decimal.Readable`: what the shortest decimal of a finite double is like;
- `Binary.readable_shortest`: it is like that;
- `Json.exists_readNumber_positional`, `Json.exists_readNumber_scientific`: both layouts read
  as decimals below the overflow;
- `Json.exists_parse_jsonText`: the text of a finite double reads;
- `Json.exists_parse_render`: so does the text of a datum.
-/

namespace Crossing

open Rounding

/-! ### Finite doubles -/

namespace Binary

/-- The magnitude of a finite double. -/
structure InRange (b : Binary) : Prop where
  mantissa_lt : b.mantissa < 2 ^ 53
  low : -1074 ≤ b.exponent
  high : b.exponent ≤ 971

/-- A finite double is a binary number in the range of the format. -/
theorem inRange_ofFloat {x : Float} (h : x.isFinite = true) : (ofFloat x).InRange := by
  have hfield : x.toBits.toNat / 4503599627370496 % 2048 ≠ 2047 := by
    intro hones
    refine unpackExponent_of_isFinite h (BitVec.eq_of_toNat_eq ?_)
    exact (toNat_unpackExponent x.toBits.toBitVec).trans hones
  rw [ofFloat, ofBits]
  split
  · exact ⟨by dsimp only; omega, by dsimp only; omega, by dsimp only; omega⟩
  · exact ⟨by dsimp only; omega, by dsimp only; omega, by dsimp only; omega⟩

end Binary

/-! ### Shortest decimals -/

/-- Zero written as such, or a decimal below the overflow that is not too small. -/
structure Decimal.Readable (d : Decimal) : Prop where
  zero : d.digits = 0 → d.exponent = 0
  below : BelowOverflow d.digits d.exponent
  point_low : -340 ≤ d.point

theorem Decimal.readable_zero : Decimal.Readable ⟨0, 0⟩ where
  zero _ := rfl
  below := by
    simp only [BelowOverflow, overflow]
    positivity
  point_low := by decide

namespace Interval

variable {b : Binary} {d : Decimal}

theorem scale_ofBinary (b : Binary) : (ofBinary b).scale = 2 ^ (2 - b.exponent).toNat := rfl

/-- The interval of a finite double ends at the overflow or before, and before it if the end
belongs to the interval. -/
theorem high_ofBinary (h : b.InRange) : (ofBinary b).high ≤ overflow * (ofBinary b).scale ∧
    ((ofBinary b).closed = true → (ofBinary b).high < overflow * (ofBinary b).scale) := by
  -- the interval reaches half a unit beyond the double, and the scale makes both integers
  have hpow : 2 * 2 ^ (b.exponent - 2).toNat ≤ 2 ^ halfUnit * 2 ^ (2 - b.exponent).toNat := by
    rw [halfUnit, ← pow_succ', ← pow_add]
    exact Nat.pow_le_pow_right (by decide) (by have := h.high; omega)
  have hbound : (2 ^ 54 - 1) * (2 * 2 ^ (b.exponent - 2).toNat) ≤
      overflow * (ofBinary b).scale := by
    rw [overflow, scale_ofBinary, Nat.mul_assoc]
    exact Nat.mul_le_mul_left _ hpow
  have hhigh : (ofBinary b).high = (2 * b.mantissa + 1) * (2 * 2 ^ (b.exponent - 2).toNat) := by
    change (4 * b.mantissa + 2) * 2 ^ (b.exponent - 2).toNat = _
    rw [← Nat.mul_assoc]
    congr 1
    omega
  have hmantissa := h.mantissa_lt
  rw [hhigh]
  refine ⟨(Nat.mul_le_mul_right _ (by omega)).trans hbound, fun hclosed => ?_⟩
  -- the ends belong to the interval only if the mantissa is even
  have heven : b.mantissa % 2 = 0 := by simpa [ofBinary] using hclosed
  exact (Nat.mul_lt_mul_of_pos_right (by omega) (by positivity)).trans_le hbound

/-- The interval of a number other than zero has a positive lower end. -/
theorem low_ofBinary (hb : b.mantissa ≠ 0) : 1 ≤ (ofBinary b).low := by
  have hpos : 0 < 2 ^ (b.exponent - 2).toNat := by positivity
  change 1 ≤ (4 * b.mantissa - (if b.narrowBelow then 1 else 2)) * 2 ^ (b.exponent - 2).toNat
  refine Nat.mul_pos ?_ hpos
  split <;> omega

/-- The two ends of an interval, whether or not they belong to it. -/
theorem ends_of_contains {i : Interval} (h : i.contains d = true) :
    i.low * 10 ^ (-d.exponent).toNat ≤ d.digits * 10 ^ d.exponent.toNat * i.scale ∧
    d.digits * 10 ^ d.exponent.toNat * i.scale ≤ i.high * 10 ^ (-d.exponent).toNat ∧
    (i.closed = false →
      d.digits * 10 ^ d.exponent.toNat * i.scale < i.high * 10 ^ (-d.exponent).toNat) := by
  rw [contains] at h
  cases hclosed : i.closed with
  | true =>
    simp only [hclosed, if_true, Bool.and_eq_true, decide_eq_true_eq] at h
    exact ⟨h.1, h.2, fun h => by cases h⟩
  | false =>
    simp only [hclosed, Bool.false_eq_true, if_false, Bool.and_eq_true, decide_eq_true_eq] at h
    exact ⟨Nat.le_of_lt h.1, Nat.le_of_lt h.2, fun _ => h.2⟩

/-- A decimal in the interval of a double does not overflow. -/
theorem belowOverflow_of_contains (hb : b.InRange) (h : (ofBinary b).contains d = true) :
    BelowOverflow d.digits d.exponent := by
  obtain ⟨-, hle, hlt⟩ := ends_of_contains h
  obtain ⟨hhigh, hclosed⟩ := high_ofBinary hb
  have hscale : 0 < (ofBinary b).scale := by
    rw [scale_ofBinary]
    positivity
  have hunit : 0 < 10 ^ (-d.exponent).toNat := by positivity
  refine Nat.lt_of_mul_lt_mul_right (a := (ofBinary b).scale) ?_
  rw [Nat.mul_right_comm overflow]
  cases hends : (ofBinary b).closed with
  | true => exact hle.trans_lt (Nat.mul_lt_mul_of_pos_right (hclosed hends) hunit)
  | false => exact (hlt hends).trans_le (Nat.mul_le_mul_right _ hhigh)

/-- The scale is bounded by the smallest exponent. -/
theorem scale_lt (hb : b.InRange) : (ofBinary b).scale < 10 ^ 325 := by
  rw [scale_ofBinary]
  calc 2 ^ (2 - b.exponent).toNat ≤ 2 ^ 1076 :=
      Nat.pow_le_pow_right (by decide) (by have := hb.low; omega)
    _ < 10 ^ 325 := by decide +kernel

/-- A decimal in the interval of a double other than zero can be read. -/
theorem readable_of_contains (hb : b.InRange) (hne : b.mantissa ≠ 0)
    (h : (ofBinary b).contains d = true) : d.digits ≠ 0 ∧ d.Readable := by
  obtain ⟨hlow, -, -⟩ := ends_of_contains h
  -- zeros in front of the digits are bounded by the smallest double
  have hpos : 10 ^ (-d.exponent).toNat ≤
      d.digits * 10 ^ d.exponent.toNat * (ofBinary b).scale :=
    (Nat.le_mul_of_pos_left _ (low_ofBinary hne)).trans hlow
  have hdigits : d.digits ≠ 0 := by
    intro hzero
    rw [hzero, Nat.zero_mul, Nat.zero_mul] at hpos
    exact absurd hpos (Nat.not_le.mpr (by positivity))
  refine ⟨hdigits, fun hzero => absurd hzero hdigits, belowOverflow_of_contains hb h, ?_⟩
  have hlength : d.digits < 10 ^ (Nat.toDigits 10 d.digits).length :=
    (Nat.length_toDigits_le_iff (by decide) Nat.length_toDigits_pos).mp le_rfl
  have hpow : 10 ^ (-d.exponent).toNat <
      10 ^ ((Nat.toDigits 10 d.digits).length + d.exponent.toNat + 325) := by
    refine hpos.trans_lt ?_
    rw [pow_add, pow_add]
    exact Nat.mul_lt_mul'' (Nat.mul_lt_mul_of_pos_right hlength (by positivity)) (scale_lt hb)
  have := (Nat.pow_lt_pow_iff_right (by decide)).mp hpow
  rw [Decimal.point]
  omega

/-- The nearest decimal is looked for in the interval. -/
theorem contains_of_nearest? {i : Interval} {tie : Tie} {exponent : Int}
    (h : i.nearest? tie exponent = some d) : i.contains d = true := by
  rw [nearest?] at h
  dsimp only at h
  -- the candidates are the decimal below and the one above; whichever lies nearer is taken
  split at h
  · cases h
  · rename_i hlower hupper
    cases h
    exact hlower
  · rename_i hlower hupper
    cases h
    exact hupper
  · rename_i hlower hupper
    split at h
    · cases h
      exact hlower
    split at h
    · cases h
      exact hupper
    split at h
    · cases h
      exact hlower
    · cases h
      exact hupper

/-- What the search finds is in the interval. The induction is on how often it looks. -/
theorem contains_of_search {i : Interval} {tie : Tie} {magnitude : Int} {fuel count : Nat}
    (h : i.search tie magnitude fuel count = some d) : i.contains d = true := by
  induction fuel generalizing count with
  | zero => cases h
  | succ fuel ih =>
    rw [search] at h
    split at h
    · rename_i hnearest
      cases h
      exact contains_of_nearest? hnearest
    · exact ih h

end Interval

namespace Decimal

variable {d : Decimal}

/-- A trailing zero that goes leaves the same number. -/
theorem Readable.tenth (h : d.Readable) (hne : d.digits ≠ 0) (hten : d.digits % 10 = 0) :
    Decimal.Readable ⟨d.digits / 10, d.exponent + 1⟩ := by
  obtain ⟨q, hq⟩ : ∃ q, d.digits = 10 * q := ⟨d.digits / 10, by omega⟩
  have hdiv : d.digits / 10 = q := by omega
  have hlength : (Nat.toDigits 10 d.digits).length = (Nat.toDigits 10 q).length + 1 := by
    rw [Json.toDigits_step (by omega), hdiv, List.length_append, List.length_singleton]
  refine ⟨fun hzero => by dsimp only at hzero; omega, ?_, ?_⟩
  -- a digit less and an exponent more is the same number
  · have hbelow := h.below
    rw [BelowOverflow, hq] at hbelow
    dsimp only
    rw [hdiv, BelowOverflow]
    by_cases hneg : d.exponent < 0
    · rw [show (-d.exponent).toNat = (-(d.exponent + 1)).toNat + 1 by omega,
        show d.exponent.toNat = 0 by omega, pow_zero, pow_succ, ← Nat.mul_assoc] at hbelow
      rw [show (d.exponent + 1).toNat = 0 by omega, pow_zero]
      omega
    · rw [show (-d.exponent).toNat = 0 by omega] at hbelow
      rw [show (-(d.exponent + 1)).toNat = 0 by omega,
        show (d.exponent + 1).toNat = d.exponent.toNat + 1 by omega, pow_succ',
        ← Nat.mul_assoc, Nat.mul_comm q]
      exact hbelow
  · have hpoint := h.point_low
    rw [point, hlength] at hpoint
    rw [point]
    dsimp only
    rw [hdiv]
    omega

/-- To drop zeros at the end changes nothing of what can be read. -/
theorem Readable.trim (fuel : Nat) (h : d.Readable) : (d.trim fuel).Readable := by
  induction fuel generalizing d with
  | zero => exact h
  | succ fuel ih =>
    rw [Decimal.trim]
    split
    · rename_i hten
      exact ih (h.tenth hten.1 hten.2)
    · exact h

end Decimal

/-- The shortest decimal of a double can be read. -/
theorem Binary.readable_shortest {b : Binary} (hb : b.InRange) (tie : Tie) :
    (b.shortest tie).Readable := by
  rw [Binary.shortest]
  split
  · exact Decimal.readable_zero
  rename_i hne
  refine Decimal.Readable.trim 17 ?_
  cases hsearch : (Interval.ofBinary b).search tie (Interval.ofBinary b).magnitude 17 1 with
  | none => exact Decimal.readable_zero
  | some d => exact (Interval.readable_of_contains hb hne (Interval.contains_of_search hsearch)).2

/-! ### Readings -/

namespace Json

variable {negative : Bool} {d : Decimal} {n k : Nat} {e : Int}

/-- A decimal that does not overflow is read as some number. -/
theorem exists_ofDecimal (negative : Bool) (h : BelowOverflow n e) (cs : List Char) :
    ∃ j, ofDecimal negative n e cs = .ok (j, cs) := by
  refine ⟨.float (roundDecimal negative n e) (isFinite_roundDecimal negative h), ?_⟩
  rw [ofDecimal, ofFloat?, dif_pos (isFinite_roundDecimal negative h)]

/-- Zeros behind digits multiply by a power of ten. -/
theorem digitsValue_append_zeros (cs : List Char) (k : Nat) :
    digitsValue (cs ++ List.replicate k '0') = digitsValue cs * 10 ^ k := by
  induction k with
  | zero => simp
  | succ k ih =>
    have hstep := digitsValue_append_singleton (cs ++ List.replicate k '0') (n := 0) (by decide)
    rw [List.replicate_succ', ← List.append_assoc]
    refine hstep.trans ?_
    rw [ih, pow_succ', Nat.add_zero, Nat.mul_left_comm]

/-- Zeros in front of digits do not matter. -/
theorem digitsValue_zeros_append (k : Nat) (cs : List Char) :
    digitsValue (List.replicate k '0' ++ cs) = digitsValue cs := by
  induction k with
  | zero => rfl
  | succ k ih => exact ih

/-- A zero is a digit. -/
theorem isDigit_of_mem_zeros {c : Char} (hc : c ∈ List.replicate k '0') : isDigit c = true := by
  rw [List.eq_of_mem_replicate hc]
  rfl

/-- The number that digits write after others of the value `n`. -/
def digitsAfter (n : Nat) (cs : List Char) : Nat :=
  cs.foldl (fun n c => 10 * n + (digitValue? c).getD 0) n

/-- Further digits of an exponent make it no smaller. -/
theorem le_digitsAfter (n : Nat) (cs : List Char) : n ≤ digitsAfter n cs := by
  induction cs generalizing n with
  | nil => exact le_rfl
  | cons c cs ih =>
    calc n ≤ 10 * n + (digitValue? c).getD 0 := by omega
      _ ≤ digitsAfter n (c :: cs) := ih _

/-- The digits of an exponent are read up to their end, unless there are too many. -/
theorem readExponentDigits_digits {shift : Int} {small : Bool} {cs : List Char} {exponent : Nat}
    (hcs : ∀ c ∈ cs, isDigit c = true) (hfits : digitsAfter exponent cs ≤ 2147483647) :
    readExponentDigits negative n shift small exponent cs =
      ofDecimal negative n (exponentOf small (digitsAfter exponent cs) - shift) [] := by
  induction cs generalizing exponent with
  | nil => rfl
  | cons c cs ih =>
    obtain ⟨v, hv⟩ := Option.isSome_iff_exists.mp (hcs c List.mem_cons_self)
    have hstep : digitsAfter exponent (c :: cs) = digitsAfter (10 * exponent + v) cs := by
      rw [digitsAfter, List.foldl_cons, hv]
      rfl
    have hnext := le_digitsAfter (10 * exponent + v) cs
    rw [hstep] at hfits ⊢
    rw [readExponentDigits, hv]
    dsimp only
    rw [if_neg (by omega)]
    exact ih (fun c hc => hcs c (List.mem_cons_of_mem _ hc)) hfits

/-- A signed exponent that fits 32 bits reads as what it writes. -/
theorem readExponent_signed {shift : Int} (he : e.natAbs ≤ 2147483647) :
    readExponent negative n shift ((if e < 0 then '-' else '+') :: Nat.toDigits 10 e.natAbs) =
      ofDecimal negative n (e - shift) [] := by
  obtain ⟨c, cs, hcs, hc⟩ := isDigit_head (n := e.natAbs)
  -- the sign is split off, and the digits are those of the size
  have hsplit : splitSign ((if e < 0 then '-' else '+') :: Nat.toDigits 10 e.natAbs) =
      (decide (e < 0), Nat.toDigits 10 e.natAbs) := by
    by_cases hneg : e < 0
    · rw [if_pos hneg, decide_eq_true hneg]
      rfl
    · rw [if_neg hneg, decide_eq_false hneg]
      rfl
  have hexponent : exponentOf (decide (e < 0)) e.natAbs = e := by
    by_cases hneg : e < 0
    · rw [exponentOf, if_pos (decide_eq_true hneg)]
      omega
    · rw [exponentOf, if_neg (by simpa using hneg)]
      omega
  have hvalue : digitsAfter 0 (Nat.toDigits 10 e.natAbs) = e.natAbs := digitsValue_toDigits _
  have hread : readExponentDigits negative n shift (decide (e < 0)) 0
      (Nat.toDigits 10 e.natAbs) = ofDecimal negative n (e - shift) [] := by
    rw [readExponentDigits_digits (fun c hc => isDigit_of_mem_toDigits hc) (hvalue.le.trans he),
      hvalue, hexponent]
  rw [readExponent, hsplit, ← hread, hcs]
  exact if_pos hc

/-- Digits that may stand before a point: a zero, or digits that do not start with one. -/
def IsWhole (cs : List Char) : Prop :=
  cs = ['0'] ∨ ∃ c x, cs = c :: x ∧ c ≠ '0' ∧ ∀ d ∈ c :: x, isDigit d = true

/-- Digits with a point are read as an integer with an exponent. -/
theorem readNumber_point {whole fraction : List Char} (hwhole : IsWhole whole)
    (hfraction : ∀ c ∈ fraction, isDigit c = true) (hne : fraction ≠ []) :
    readNumber negative (whole ++ '.' :: fraction) =
      ofDecimal negative (digitsValue (whole ++ fraction)) (-fraction.length) [] := by
  have hread : ∀ n, readFraction negative n whole ('.' :: fraction) =
      ofDecimal negative (digitsValue (whole ++ fraction)) (-fraction.length) [] := by
    intro n
    rw [← readFraction_point hfraction hne (by simp) (by simp), List.append_nil]
  obtain rfl | ⟨c, x, rfl, hc, hdigits⟩ := hwhole
  · exact (readNumber_zero (by simp [isDigit, digitValue?])).trans (hread 0)
  · exact (readNumber_digits hdigits (by simp [isDigit, digitValue?]) hc).trans (hread _)

/-- A number without zeros in front can be the whole part. -/
theorem isWhole_digits_append (hn : n ≠ 0) {cs : List Char} (hcs : ∀ c ∈ cs, isDigit c = true) :
    IsWhole (Nat.toDigits 10 n ++ cs) := by
  obtain ⟨c, x, hx, hc, hdigit⟩ := exists_toDigits_cons hn
  refine .inr ⟨c, x ++ cs, by rw [hx, List.cons_append], hc, fun d hd => ?_⟩
  rw [← List.cons_append, ← hx] at hd
  rcases List.mem_append.mp hd with hd | hd
  · exact isDigit_of_mem_toDigits hd
  · exact hcs d hd

/-- A whole number is some tenths, and overflows no sooner. -/
theorem belowOverflow_tenths (h : BelowOverflow n k) : BelowOverflow (n * 10 ^ (k + 1)) (-1) := by
  rw [BelowOverflow, show (-(k : Int)).toNat = 0 by omega, pow_zero, Nat.mul_one,
    Int.toNat_natCast] at h
  rw [BelowOverflow, pow_succ, ← Nat.mul_assoc]
  exact (Nat.mul_one _).trans_lt (Nat.mul_lt_mul_of_pos_right h (by decide))

/-- Digits with a point are read as some number, if that does not overflow. -/
theorem exists_readNumber_of_point {whole fraction : List Char} (negative : Bool)
    (hwhole : IsWhole whole) (hfraction : ∀ c ∈ fraction, isDigit c = true) (hne : fraction ≠ [])
    (h : BelowOverflow (digitsValue (whole ++ fraction)) (-fraction.length)) :
    ∃ j, readNumber negative (whole ++ '.' :: fraction) = .ok (j, []) := by
  rw [readNumber_point hwhole hfraction hne]
  exact exists_ofDecimal negative h []

/-- The positional text of a readable decimal is a number. -/
theorem exists_readNumber_positional (negative : Bool) (h : d.Readable) :
    ∃ j, readNumber negative d.positional.toList = .ok (j, []) := by
  have hdigits : ∀ c ∈ Nat.toDigits 10 d.digits, isDigit c = true :=
    fun c => isDigit_of_mem_toDigits
  unfold Decimal.positional
  by_cases hwhole : 0 ≤ d.exponent
  · obtain ⟨k, hk⟩ := Int.eq_ofNat_of_zero_le hwhole
    have htext : (String.ofList (Nat.toDigits 10 d.digits) ++ Decimal.zeros d.exponent.toNat ++
        ".0").toList = (Nat.toDigits 10 d.digits ++ List.replicate k '0') ++ '.' :: ['0'] := by
      simp [Decimal.zeros, hk]
    simp only [if_pos hwhole, htext]
    refine exists_readNumber_of_point negative ?_ (by simp [isDigit, digitValue?]) (by simp) ?_
    · by_cases hzero : d.digits = 0
      · obtain rfl : k = 0 := by have := h.zero hzero; omega
        rw [hzero]
        exact .inl rfl
      · exact isWhole_digits_append hzero fun c => isDigit_of_mem_zeros
    · have hvalue := digitsValue_append_zeros (Nat.toDigits 10 d.digits) (k + 1)
      rw [digitsValue_toDigits, List.replicate_succ', ← List.append_assoc] at hvalue
      rw [hvalue]
      exact belowOverflow_tenths (hk ▸ h.below)
  have hne : d.digits ≠ 0 := fun hzero => hwhole (h.zero hzero).ge
  have hbelow := h.below
  by_cases hpoint : 0 < d.point
  · -- The point stands inside the digits.
    obtain ⟨c, x, hx, hc, -⟩ := exists_toDigits_cons hne
    obtain ⟨n, hn⟩ : ∃ n, d.point.toNat = n + 1 := ⟨d.point.toNat - 1, by omega⟩
    have hlength : ((Nat.toDigits 10 d.digits).drop d.point.toNat).length = -d.exponent := by
      rw [List.length_drop]
      unfold Decimal.point at hpoint ⊢
      omega
    have htext : (String.ofList ((Nat.toDigits 10 d.digits).take d.point.toNat) ++ "." ++
        String.ofList ((Nat.toDigits 10 d.digits).drop d.point.toNat)).toList =
        (Nat.toDigits 10 d.digits).take d.point.toNat ++
          '.' :: (Nat.toDigits 10 d.digits).drop d.point.toNat := by
      simp
    simp only [if_neg hwhole, if_pos hpoint, htext]
    refine exists_readNumber_of_point negative (.inr ⟨c, x.take n, ?_, hc, fun e he => ?_⟩)
      (fun c hc => hdigits c (List.mem_of_mem_drop hc)) (fun hnil => ?_) ?_
    · rw [hx, hn, List.take_succ_cons]
    · refine hdigits e (hx ▸ ?_)
      rcases List.mem_cons.mp he with rfl | he
      · exact List.mem_cons_self
      · exact List.mem_cons_of_mem _ (List.mem_of_mem_take he)
    · rw [hnil, List.length_nil] at hlength
      omega
    · rw [List.take_append_drop, digitsValue_toDigits, hlength, Int.neg_neg]
      exact hbelow
  · have hlength :
        ((List.replicate (-d.point).toNat '0' ++ Nat.toDigits 10 d.digits).length : Int) =
        -d.exponent := by
      rw [List.length_append, List.length_replicate]
      unfold Decimal.point at hpoint ⊢
      omega
    have htext : ("0." ++ Decimal.zeros (-d.point).toNat ++
        String.ofList (Nat.toDigits 10 d.digits)).toList =
        ['0'] ++ '.' :: (List.replicate (-d.point).toNat '0' ++ Nat.toDigits 10 d.digits) := by
      simp [Decimal.zeros]
    simp only [if_neg hwhole, if_neg hpoint, htext]
    refine exists_readNumber_of_point negative (.inl rfl) (fun c hc => ?_) (by simp) ?_
    · rcases List.mem_append.mp hc with hc | hc
      · exact isDigit_of_mem_zeros hc
      · exact hdigits c hc
    · have hvalue := digitsValue_zeros_append ((-d.point).toNat + 1) (Nat.toDigits 10 d.digits)
      rw [digitsValue_toDigits, List.replicate_succ] at hvalue
      rw [hlength, Int.neg_neg]
      exact hvalue.symm ▸ hbelow

/-- The scientific text of a readable decimal is a number. -/
theorem exists_readNumber_scientific (negative : Bool) (h : d.Readable) (hne : d.digits ≠ 0) :
    ∃ j, readNumber negative d.scientific.toList = .ok (j, []) := by
  have hsmall : (d.point - 1).natAbs ≤ 2147483647 := by
    have hlow := h.point_low
    have hhigh := h.below.length_le hne
    unfold Decimal.point at hlow ⊢
    omega
  -- the digits behind the point are what the exponent makes up for
  have hread : ∀ shift : Int, d.point - 1 - shift = d.exponent →
      ∃ j, readExponent negative d.digits shift ((if d.point - 1 < 0 then '-' else '+') ::
        Nat.toDigits 10 (d.point - 1).natAbs) = .ok (j, []) := by
    intro shift hshift
    rw [readExponent_signed hsmall, hshift]
    exact exists_ofDecimal negative h.below []
  have hmark : (if d.point - 1 < 0 then "e-" else "e+").toList =
      ['e', if d.point - 1 < 0 then '-' else '+'] := by
    split <;> rfl
  obtain ⟨c, x, hx, hc, -⟩ := exists_toDigits_cons hne
  have hdigits : ∀ b ∈ c :: x, isDigit b = true := fun b hb => isDigit_of_mem_toDigits (hx ▸ hb)
  have hvalue : digitsValue (c :: x) = d.digits := hx ▸ digitsValue_toDigits d.digits
  have hpoint : d.point = x.length + 1 + d.exponent := by
    rw [Decimal.point, hx, List.length_cons, Nat.cast_add, Nat.cast_one]
  unfold Decimal.scientific
  simp only [hx]
  cases x with
  | nil =>
    obtain ⟨j, hj⟩ := hread 0 (by rw [hpoint, List.length_nil]; omega)
    have hnumber : readNumber negative (c :: ([] ++ 'e' ::
        (if d.point - 1 < 0 then '-' else '+') :: Nat.toDigits 10 (d.point - 1).natAbs)) =
          .ok (j, []) := by
      rw [readNumber_digits hdigits (by simp [isDigit, digitValue?]) hc,
        readFraction_exponent (.inl rfl), hvalue, hj]
    refine ⟨j, .trans (congrArg _ ?_) hnumber⟩
    rw [String.toList_append, String.toList_append, hmark]
    simp [natText]
  | cons b x =>
    obtain ⟨j, hj⟩ := hread (b :: x).length (by rw [hpoint]; omega)
    have hnumber : readNumber negative (c :: ([] ++ '.' :: (b :: x ++ 'e' ::
        (if d.point - 1 < 0 then '-' else '+') :: Nat.toDigits 10 (d.point - 1).natAbs))) =
          .ok (j, []) := by
      rw [readNumber_digits (fun e he => hdigits e (by simp_all)) (by simp [isDigit, digitValue?])
          hc, readFraction_point_exponent (fun e he => hdigits e (List.mem_cons_of_mem _ he))
          (by simp) (.inl rfl), List.singleton_append, hvalue, hj]
    refine ⟨j, .trans (congrArg _ ?_) hnumber⟩
    rw [String.toList_append, String.toList_append, hmark]
    simp [natText]

/-- The text of a finite double reads, as a number. -/
theorem exists_parse_jsonText {x : Float} (h : x.isFinite = true) :
    ∃ j, parse (jsonText x) = .ok j := by
  have hreadable := Binary.readable_shortest (Binary.inRange_ofFloat h) .toEven
  unfold jsonText
  generalize (Binary.ofFloat x).shortest .toEven = d at hreadable ⊢
  -- a number is written with its point in place if that is short, and with an exponent if not
  have hmagnitude : ∀ negative, ∃ j, readNumber negative (if d.digits = 0 ∨
      (-5 < d.point ∧ d.point ≤ 16) then d.positional else d.scientific).toList = .ok (j, []) := by
    intro negative
    split
    · exact exists_readNumber_positional negative hreadable
    · rename_i hlayout
      exact exists_readNumber_scientific negative hreadable fun hzero => hlayout (.inl hzero)
  obtain ⟨c, cs, hcs, hc⟩ : ∃ c cs, (if d.digits = 0 ∨ (-5 < d.point ∧ d.point ≤ 16)
      then d.positional else d.scientific).toList = c :: cs ∧ isDigit c = true := by
    split
    · exact isDigit_head_positional d
    · exact isDigit_head_scientific d
  unfold signed
  -- the sign is in front of the digits, or there is none
  split
  · obtain ⟨j, hj⟩ := hmagnitude true
    refine ⟨j, parse_of_readValue fun fuel => ?_⟩
    rw [String.toList_append]
    exact readValue_minus.trans hj
  · obtain ⟨j, hj⟩ := hmagnitude false
    refine ⟨j, parse_of_readValue fun fuel => ?_⟩
    rw [hcs] at hj ⊢
    exact (readValue_digit hc).trans hj

/-! ### Texts of data -/

mutual

/-- The text of a datum reads, whatever its doubles read as. -/
theorem exists_readsTo : ∀ j : Json, j.isDatum = true → ∃ k, ReadsTo j k
  | .null, _ => ⟨_, reads_null⟩
  | .bool b, _ => ⟨_, reads_bool b⟩
  | .int _, hdatum => ⟨_, reads_int (of_decide_eq_true hdatum)⟩
  | .float _ finite, _ => by
    obtain ⟨k, hparse⟩ := exists_parse_jsonText finite
    exact ⟨k, readsTo_float hparse⟩
  | .text s, _ => ⟨_, reads_text s⟩
  | .list items, hdatum => by
    obtain ⟨ks, hks⟩ := exists_forall₂_readsTo items hdatum
    exact ⟨_, readsTo_list hks⟩
  | .object fields, hdatum => by
    obtain ⟨hnames, hdatum⟩ := (Bool.and_eq_true _ _).mp hdatum
    obtain ⟨ks, hks⟩ := exists_forall₂_fieldReadsTo fields hdatum
    exact ⟨_, readsTo_object hks (of_decide_eq_true hnames)⟩

/-- The texts of items are read as some items. -/
theorem exists_forall₂_readsTo : ∀ items : List Json, isDatumIn items = true →
    ∃ ks, List.Forall₂ ReadsTo items ks
  | [], _ => ⟨_, .nil⟩
  | j :: js, hdatum => by
    obtain ⟨hj, hjs⟩ := (Bool.and_eq_true _ _).mp hdatum
    obtain ⟨k, hk⟩ := exists_readsTo j hj
    obtain ⟨ks, hks⟩ := exists_forall₂_readsTo js hjs
    exact ⟨_, .cons hk hks⟩

/-- The texts of fields are read as some fields. -/
theorem exists_forall₂_fieldReadsTo : ∀ fields : List (String × Json), isDatumOf fields = true →
    ∃ ks, List.Forall₂ FieldReadsTo fields ks
  | [], _ => ⟨_, .nil⟩
  | (name, j) :: fields, hdatum => by
    obtain ⟨hj, hfields⟩ := (Bool.and_eq_true _ _).mp hdatum
    obtain ⟨k, hk⟩ := exists_readsTo j hj
    obtain ⟨ks, hks⟩ := exists_forall₂_fieldReadsTo fields hfields
    exact ⟨(name, k) :: ks, .cons ⟨rfl, hk⟩ hks⟩

end

/-- The text of a datum reads, unless it nests too deep. -/
theorem exists_parse_render {j : Json} (hdatum : j.isDatum = true)
    (hnest : j.nesting < maxNesting) : ∃ k, parse j.render = .ok k := by
  obtain ⟨k, hk⟩ := exists_readsTo j hdatum
  exact ⟨k, parse_of_readsTo hk hnest⟩

end Json

end Crossing
