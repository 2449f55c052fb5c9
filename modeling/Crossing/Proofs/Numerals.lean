import Crossing.Proofs.DataTexts
import Crossing.Text.Blank

/-!
# Numerals

What the reader takes off a text as a number depends on the text up to the end of the
number only: it takes the same off, whatever follows that ends a number or starts alike.

- `Json.EndsNumber`: what may follow any number;
- `Json.Follows`: what may follow in the place of something else;
- `Json.EndsFirmly`: what is taken off does not end in a blank;
- `Json.IsNumber`: what a number reads as;
- `Json.takes_number`, `Json.readNumber_append`: how a number is taken off.
-/

namespace Crossing

namespace Json

variable {cs rest r t x y : List Char} {c : Char} {j : Json} {negative small : Bool}
  {n exponent : Nat} {shift : Int}

/-! ### What may follow -/

/-- What may follow a number: nothing that would be read as part of it. -/
def EndsNumber (rest : List Char) : Prop :=
  ∀ c cs, rest = c :: cs → isDigit c = false ∧ c ≠ '.' ∧ c ≠ 'e' ∧ c ≠ 'E'

/-- The end of the text ends a number. -/
theorem endsNumber_nil : EndsNumber [] := fun _ _ h => by cases h

/-- A character that belongs to no number ends one. -/
theorem endsNumber_cons {c : Char} (hc : isDigit c = false ∧ c ≠ '.' ∧ c ≠ 'e' ∧ c ≠ 'E')
    (cs : List Char) : EndsNumber (c :: cs) := by
  rintro d ds heq
  cases heq
  exact hc

/-- One text may follow in the place of another: it ends a number, or starts alike. -/
def Follows (rest t : List Char) : Prop := EndsNumber t ∨ t.head? = rest.head?

/-- What ends a number may follow it in place of another end. -/
theorem EndsNumber.follows (h : EndsNumber t) (rest : List Char) : Follows rest (rest ++ t) := by
  cases rest with
  | nil => exact .inl h
  | cons c rest => exact .inr rfl

/-- What is read first may go in front again. -/
theorem Follows.append (h : Follows rest t) (x : List Char) : Follows (x ++ rest) (x ++ t) := by
  cases x with
  | nil => exact h
  | cons c x => exact .inr rfl

/-- What holds of a character that ends a number, and of the one that a text starts with,
holds of the one that follows in its place. -/
theorem Follows.head {p : Char → Prop} (h : Follows rest t) (hrest : ∀ c ∈ rest.head?, p c)
    (hend : ∀ c, isDigit c = false ∧ c ≠ '.' ∧ c ≠ 'e' ∧ c ≠ 'E' → p c) :
    ∀ c ∈ t.head?, p c := by
  intro c hc
  obtain hends | hsame := h
  · obtain ⟨t, rfl⟩ := List.head?_eq_some_iff.mp hc
    exact hend c (hends c t rfl)
  · exact hrest c (hsame ▸ hc)

/-! ### Ends of texts -/

/-- A text ends in a character that is no blank. -/
def EndsFirmly (x : List Char) : Prop := ∃ c, x.getLast? = some c ∧ isBlank c = false

/-- A text that ends with no blank ends firmly. -/
theorem endsFirmly_concat (hc : isBlank c = false) (x : List Char) : EndsFirmly (x ++ [c]) :=
  ⟨c, List.getLast?_concat, hc⟩

/-- What comes in front does not matter to the end. -/
theorem EndsFirmly.append_left (h : EndsFirmly y) (x : List Char) : EndsFirmly (x ++ y) := by
  obtain ⟨c, hlast, hc⟩ := h
  exact ⟨c, by rw [List.getLast?_append, hlast, Option.some_or], hc⟩

/-- A text that ends firmly is not empty. -/
theorem EndsFirmly.length_pos (h : EndsFirmly x) : 0 < x.length := by
  obtain ⟨c, hlast, -⟩ := h
  exact List.length_pos_of_mem (List.mem_of_getLast? hlast)

/-- A digit is no blank. -/
theorem isBlank_of_isDigit (hc : isDigit c = true) : isBlank c = false := by
  have hrange : 48 ≤ c.toNat ∧ c.toNat ≤ 57 := by
    unfold isDigit digitValue? at hc
    split at hc
    · assumption
    · cases hc
  simp only [isBlank, Bool.or_eq_false_iff, Bool.and_eq_false_iff, decide_eq_false_iff_not,
    beq_eq_false_iff_ne]
  omega

/-- Digits end firmly. -/
theorem endsFirmly_digits (hx : ∀ c ∈ x, isDigit c = true) (hne : x ≠ []) : EndsFirmly x := by
  obtain ⟨c, hlast⟩ := Option.isSome_iff_exists.mp (List.getLast?_isSome.mpr hne)
  exact ⟨c, hlast, isBlank_of_isDigit (hx c (List.mem_of_getLast? hlast))⟩

/-! ### Numbers -/

/-- The data of numbers: integers of 64 bits, signed or unsigned, and doubles. -/
def IsNumber : Json → Prop
  | .int i => -9223372036854775808 ≤ i ∧ i ≤ 18446744073709551615
  | .float _ _ => True
  | _ => False

/-- A double that is read is a number. -/
theorem isNumber_of_ofFloat? {x : Float} (h : ofFloat? x = some j) : j.IsNumber := by
  unfold ofFloat? at h
  split at h
  · cases h
    trivial
  · cases h

/-- An integer that is read is a number. -/
theorem isNumber_of_ofDigits? (h : ofDigits? negative n = some j) : j.IsNumber := by
  unfold ofDigits? at h
  split at h
  · split at h
    · cases h
      show -9223372036854775808 ≤ -(n : Int) ∧ -(n : Int) ≤ 18446744073709551615
      omega
    · exact isNumber_of_ofFloat? h
  · split at h
    · cases h
      show -9223372036854775808 ≤ (n : Int) ∧ (n : Int) ≤ 18446744073709551615
      omega
    · exact isNumber_of_ofFloat? h

/-- The number of a decimal, in front of any text. -/
theorem ofDecimal_eq_ok {e : Int} (h : ofDecimal negative n e cs = .ok (j, rest)) :
    rest = cs ∧ j.IsNumber ∧ ∀ t, ofDecimal negative n e t = .ok (j, t) := by
  unfold ofDecimal at h ⊢
  cases hfloat : ofFloat? (roundDecimal negative n e) with
  | none =>
    rw [hfloat] at h
    cases h
  | some k =>
    rw [hfloat] at h
    cases h
    exact ⟨rfl, isNumber_of_ofFloat? hfloat, fun t => rfl⟩

/-! ### Digits -/

/-- Digits are told from what follows them. -/
theorem span_digits (hx : ∀ c ∈ x, isDigit c = true) (ht : ∀ c ∈ t.head?, isDigit c = false) :
    (x ++ t).takeWhile isDigit = x ∧ (x ++ t).dropWhile isDigit = t := by
  rw [List.takeWhile_append_of_pos hx, List.dropWhile_append_of_pos hx]
  cases t with
  | nil => exact ⟨List.append_nil x, rfl⟩
  | cons c t =>
    have hc : ¬isDigit c = true := by simp [ht c rfl]
    rw [List.takeWhile_cons_of_neg hc, List.dropWhile_cons_of_neg hc]
    exact ⟨List.append_nil x, rfl⟩

/-- A text starts with all its digits. -/
theorem exists_span_digits (cs : List Char) : ∃ x t, cs = x ++ t ∧ (∀ c ∈ x, isDigit c = true) ∧
    ∀ c ∈ t.head?, isDigit c = false := by
  refine ⟨cs.takeWhile isDigit, cs.dropWhile isDigit, List.takeWhile_append_dropWhile.symm,
    fun c => List.mem_takeWhile_imp, fun c hc => ?_⟩
  have hnot := List.head?_dropWhile_not isDigit cs
  rw [Option.mem_def.mp hc] at hnot
  simpa using hnot

/-! ### Exponents -/

/-- The exponent ends where its digits do. -/
theorem readExponentDigits_end (ht : ∀ c ∈ t.head?, isDigit c = false) :
    readExponentDigits negative n shift small exponent t =
      ofDecimal negative n (exponentOf small exponent - shift) t := by
  cases t with
  | nil => rfl
  | cons c t =>
    have hc : digitValue? c = none := by simpa [isDigit] using ht c rfl
    rw [readExponentDigits, hc]

/-- The digits of an exponent are read up to their end, whatever else follows. The induction
is on the text. -/
theorem takes_exponentDigits
    (h : readExponentDigits negative n shift small exponent cs = .ok (j, rest)) :
    ∃ x, cs = x ++ rest ∧ (∀ d ∈ x, isDigit d = true) ∧
      (∀ d ∈ rest.head?, isDigit d = false) ∧ j.IsNumber ∧ ∀ t, Follows rest t →
        readExponentDigits negative n shift small exponent (x ++ t) = .ok (j, t) := by
  -- the induction is on the digits that are left
  induction cs generalizing exponent with
  | nil =>
    rw [readExponentDigits_end (by simp)] at h
    obtain ⟨rfl, hj, hsame⟩ := ofDecimal_eq_ok h
    refine ⟨[], rfl, by simp, by simp, hj, fun t ht => ?_⟩
    exact (readExponentDigits_end (ht.head (by simp) fun c hc => hc.1)).trans (hsame t)
  | cons c cs ih =>
    -- the exponent ends at the first character that is no digit
    cases hdigit : digitValue? c with
    | none =>
      have hc : ∀ d ∈ (c :: cs).head?, isDigit d = false := by
        rintro d hd
        cases hd
        simp [isDigit, hdigit]
      rw [readExponentDigits_end hc] at h
      obtain ⟨rfl, hj, hsame⟩ := ofDecimal_eq_ok h
      refine ⟨[], rfl, by simp, hc, hj, fun t ht => ?_⟩
      exact (readExponentDigits_end (ht.head hc fun c hc => hc.1)).trans (hsame t)
    | some d =>
      have hc : isDigit c = true := by simp [isDigit, hdigit]
      rw [readExponentDigits] at h
      simp only [hdigit] at h
      -- an exponent with too many digits stops the reading
      split at h
      · rename_i hlarge
        split at h
        · cases h
        · rename_i hzero
          obtain ⟨x, t, rfl, hx, ht⟩ := exists_span_digits cs
          rw [(span_digits hx ht).2] at h
          obtain ⟨rfl, hj, hsame⟩ := ofDecimal_eq_ok h
          refine ⟨c :: x, rfl, List.forall_mem_cons.mpr ⟨hc, hx⟩, ht, hj, fun t' ht' => ?_⟩
          rw [List.cons_append, readExponentDigits, hdigit]
          simp only [if_pos hlarge, if_neg hzero, (span_digits hx (ht'.head ht fun c hc => hc.1)).2]
          exact hsame t'
      · rename_i hlarge
        obtain ⟨x, rfl, hx, hend, hj, htakes⟩ := ih h
        refine ⟨c :: x, rfl, List.forall_mem_cons.mpr ⟨hc, hx⟩, hend, hj, fun t ht => ?_⟩
        rw [List.cons_append, readExponentDigits, hdigit]
        simp only [if_neg hlarge]
        exact htakes t ht

/-- A sign is split off whatever digit follows it. -/
theorem exists_sign (cs : List Char) : ∃ sign, cs = sign ++ (splitSign cs).2 ∧
    ∀ d t, isDigit d = true → splitSign (sign ++ d :: t) = ((splitSign cs).1, d :: t) := by
  unfold splitSign
  split
  · exact ⟨['-'], rfl, fun d t _ => rfl⟩
  · exact ⟨['+'], rfl, fun d t _ => rfl⟩
  · refine ⟨[], rfl, fun d t hd => ?_⟩
    rw [List.nil_append]
    split
    · exact absurd hd (by rename_i heq; cases heq; decide)
    · exact absurd hd (by rename_i heq; cases heq; decide)
    · rfl

/-- An exponent is read with its sign and digits, whatever else follows. -/
theorem takes_exponent (h : readExponent negative n shift cs = .ok (j, rest)) :
    ∃ x, cs = x ++ rest ∧ EndsFirmly x ∧ j.IsNumber ∧
      ∀ t, Follows rest t → readExponent negative n shift (x ++ t) = .ok (j, t) := by
  obtain ⟨sign, hcs, hsign⟩ := exists_sign cs
  unfold readExponent at h
  -- an exponent needs a digit at least, behind its sign
  cases hdigits : (splitSign cs).2 with
  | nil =>
    simp only [hdigits] at h
    cases h
  | cons d ds =>
    simp only [hdigits] at h
    -- the first digit counts like the others
    split at h
    · rename_i hd
      obtain ⟨x, hx, hall, hend, hj, htakes⟩ := takes_exponentDigits h
      cases x with
      | nil =>
        obtain rfl : d :: ds = rest := hx
        exact absurd hd (by simp [hend d rfl])
      | cons e x =>
        obtain ⟨rfl, rfl⟩ := List.cons.inj hx
        refine ⟨sign ++ d :: x, by rw [hcs, hdigits, List.append_assoc]; rfl,
          (endsFirmly_digits hall (List.cons_ne_nil d x)).append_left sign, hj, fun t ht => ?_⟩
        rw [List.append_assoc, List.cons_append, readExponent]
        simp only [hsign d (x ++ t) hd, hd, if_true]
        exact htakes t ht
    · cases h

/-! ### Fractions -/

variable {digits : List Char}

/-- Digits after a point, and no exponent. -/
theorem readFraction_point (hx : ∀ d ∈ x, isDigit d = true) (hne : x ≠ [])
    (ht : ∀ d ∈ t.head?, isDigit d = false) (he : ∀ d ∈ t.head?, ¬(d = 'e' ∨ d = 'E')) :
    readFraction negative n digits ('.' :: (x ++ t)) =
      ofDecimal negative (digitsValue (digits ++ x)) (-x.length) t := by
  obtain ⟨htake, hdrop⟩ := span_digits hx ht
  simp only [readFraction, htake, hdrop, if_neg hne]
  cases t with
  | nil => rfl
  | cons d t => exact if_neg (he d rfl)

/-- Digits after a point, and an exponent. -/
theorem readFraction_point_exponent (hx : ∀ d ∈ x, isDigit d = true) (hne : x ≠ [])
    (he : c = 'e' ∨ c = 'E') : readFraction negative n digits ('.' :: (x ++ c :: t)) =
      readExponent negative (digitsValue (digits ++ x)) x.length t := by
  have hc : ∀ d ∈ (c :: t).head?, isDigit d = false := by
    rintro d hd
    cases hd
    obtain rfl | rfl := he <;> rfl
  obtain ⟨htake, hdrop⟩ := span_digits hx hc
  simp only [readFraction, htake, hdrop, if_neg hne, if_pos he]

/-- An exponent may follow a fraction. -/
theorem readFraction_exponent (he : c = 'e' ∨ c = 'E') :
    readFraction negative n digits (c :: t) = readExponent negative n 0 t := by
  have hpoint : c ≠ '.' := by rintro rfl; simp at he
  rw [readFraction.eq_2 _ _ _ _ _ (by simpa using hpoint), if_pos he]

/-- Neither a point nor an exponent. -/
theorem readFraction_end (ht : ∀ d ∈ t.head?, d ≠ '.' ∧ ¬(d = 'e' ∨ d = 'E')) :
    readFraction negative n digits t = match ofDigits? negative n with
      | some j => .ok (j, t)
      | none => stuckBefore .numberTooLarge t := by
  cases t with
  | nil => rfl
  | cons d t =>
    obtain ⟨hpoint, he⟩ := ht d rfl
    exact (readFraction.eq_2 _ _ _ _ _ (by simpa using hpoint)).trans (if_neg he)

/-- A fraction is read with what belongs to it, whatever else follows. -/
theorem takes_fraction (h : readFraction negative n digits cs = .ok (j, rest)) :
    ∃ x, cs = x ++ rest ∧ (x = [] ∨ EndsFirmly x) ∧ j.IsNumber ∧
      ∀ t, Follows rest t → readFraction negative n digits (x ++ t) = .ok (j, t) := by
  -- there is neither a point nor an exponent, and then the number is an integer
  by_cases hplain : ∀ d ∈ cs.head?, d ≠ '.' ∧ ¬(d = 'e' ∨ d = 'E')
  · rw [readFraction_end hplain] at h
    cases hj : ofDigits? negative n with
    | none =>
      rw [hj] at h
      cases h
    | some k =>
      rw [hj] at h
      cases h
      refine ⟨[], rfl, .inl rfl, isNumber_of_ofDigits? hj, fun t ht => ?_⟩
      have hend := ht.head hplain fun c hc => ⟨hc.2.1, not_or.mpr hc.2.2⟩
      rw [List.nil_append, readFraction_end hend, hj]
  -- a point comes before an exponent
  cases cs with
  | nil => exact absurd (fun d hd => by cases hd) hplain
  | cons c cs =>
    by_cases he : c = 'e' ∨ c = 'E'
    · rw [readFraction_exponent he] at h
      obtain ⟨x, rfl, hx, hj, htakes⟩ := takes_exponent h
      refine ⟨c :: x, rfl, .inr (hx.append_left [c]), hj, fun t ht => ?_⟩
      rw [List.cons_append, readFraction_exponent he, htakes t ht]
    · obtain rfl : c = '.' := by
        by_contra hpoint
        exact hplain fun d hd => by cases hd; exact ⟨hpoint, he⟩
      obtain ⟨x, after, rfl, hx, hafter⟩ := exists_span_digits cs
      by_cases hne : x = []
      · obtain ⟨htake, hdrop⟩ := span_digits hx hafter
        simp only [readFraction, htake, hdrop, if_pos hne] at h
        cases after <;> cases h
      have hfirm : EndsFirmly ('.' :: x) := (endsFirmly_digits hx hne).append_left ['.']
      by_cases hexp : ∀ d ∈ after.head?, ¬(d = 'e' ∨ d = 'E')
      · rw [readFraction_point hx hne hafter hexp] at h
        obtain ⟨rfl, hj, hsame⟩ := ofDecimal_eq_ok h
        refine ⟨'.' :: x, rfl, .inr hfirm, hj, fun t ht => ?_⟩
        rw [List.cons_append, readFraction_point hx hne (ht.head hafter fun c hc => hc.1)
          (ht.head hexp fun c hc => not_or.mpr hc.2.2)]
        exact hsame t
      · cases after with
        | nil => exact absurd (fun d hd => by cases hd) hexp
        | cons d after =>
          have hd : d = 'e' ∨ d = 'E' := by
            by_contra hd
            exact hexp fun d' hd' => by cases hd'; exact hd
          rw [readFraction_point_exponent hx hne hd] at h
          obtain ⟨y, rfl, hy, hj, htakes⟩ := takes_exponent h
          refine ⟨'.' :: (x ++ d :: y), by simp,
            .inr ((hy.append_left [d]).append_left ('.' :: x)), hj, fun t ht => ?_⟩
          rw [List.cons_append, List.append_assoc, List.cons_append,
            readFraction_point_exponent hx hne hd, htakes t ht]

/-! ### Whole numbers -/

/-- A zero in front is the whole part. -/
theorem readNumber_zero (h : ∀ d ∈ cs.head?, isDigit d = false) :
    readNumber negative ('0' :: cs) = readFraction negative 0 ['0'] cs := by
  cases cs with
  | nil => rfl
  | cons d cs => simp only [readNumber, if_true, h d rfl, Bool.false_eq_true, if_false]

/-- Digits without a zero in front are the whole part. -/
theorem readNumber_digits (hx : ∀ d ∈ c :: x, isDigit d = true)
    (ht : ∀ d ∈ t.head?, isDigit d = false) (hzero : c ≠ '0') :
    readNumber negative (c :: (x ++ t)) =
      readFraction negative (digitsValue (c :: x)) (c :: x) t := by
  obtain ⟨htake, hdrop⟩ := span_digits hx ht
  rw [List.cons_append] at htake hdrop
  simp only [readNumber, if_neg hzero, hx c List.mem_cons_self, if_true, htake, hdrop]

/-- A number is taken off up to its end. -/
theorem takes_number (h : readNumber negative cs = .ok (j, rest)) :
    ∃ x, cs = x ++ rest ∧ EndsFirmly x ∧ j.IsNumber ∧
      ∀ t, Follows rest t → readNumber negative (x ++ t) = .ok (j, t) := by
  have hfirm : ∀ x y : List Char, EndsFirmly x → (y = [] ∨ EndsFirmly y) → EndsFirmly (x ++ y) := by
    rintro x y hx (rfl | hy)
    · rwa [List.append_nil]
    · exact hy.append_left x
  cases cs with
  | nil => cases h
  | cons c cs =>
    -- a zero is the whole part on its own, and any other digit begins one
    by_cases hzero : c = '0'
    · obtain rfl := hzero
      -- a digit behind the zero is refused
      by_cases hhead : ∀ d ∈ cs.head?, isDigit d = false
      · rw [readNumber_zero hhead] at h
        obtain ⟨x, rfl, hx, hj, htakes⟩ := takes_fraction h
        refine ⟨'0' :: x, rfl, hfirm ['0'] x (endsFirmly_concat rfl []) hx, hj, fun t ht => ?_⟩
        rw [List.cons_append, readNumber_zero ((ht.append x).head hhead fun c hc => hc.1),
          htakes t ht]
      · cases cs with
        | nil => exact absurd (fun d hd => by cases hd) hhead
        | cons d cs =>
          have hd : isDigit d = true := by simpa using hhead
          simp only [readNumber, if_true, hd] at h
          cases h
    · by_cases hdigit : isDigit c = true
      · obtain ⟨x, after, rfl, hx, hafter⟩ := exists_span_digits cs
        have hall : ∀ d ∈ c :: x, isDigit d = true := List.forall_mem_cons.mpr ⟨hdigit, hx⟩
        rw [readNumber_digits hall hafter hzero] at h
        obtain ⟨y, rfl, hy, hj, htakes⟩ := takes_fraction h
        refine ⟨c :: x ++ y, by simp, hfirm _ y (endsFirmly_digits hall (List.cons_ne_nil c x)) hy, hj,
          fun t ht => ?_⟩
        rw [List.append_assoc, List.cons_append,
          readNumber_digits hall ((ht.append y).head hafter fun c hc => hc.1) hzero, htakes t ht]
      · simp only [readNumber, if_neg hzero, if_neg hdigit] at h
        cases h

/-- A number reads the same if something follows it that ends a number. -/
theorem readNumber_append (hrest : EndsNumber rest) (h : readNumber negative cs = .ok (j, r)) :
    readNumber negative (cs ++ rest) = .ok (j, r ++ rest) := by
  obtain ⟨x, rfl, -, -, htakes⟩ := takes_number h
  rw [List.append_assoc]
  exact htakes (r ++ rest) (hrest.follows r)

end Json

end Crossing
