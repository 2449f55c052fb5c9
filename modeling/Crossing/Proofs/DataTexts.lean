import Crossing.Json.Reading
import Crossing.Payload
import Mathlib.Data.List.TakeWhile

/-!
# Texts of data

The texts in which scalars cross read back as the scalars. Of floats nothing is
said here.

- `Json.digitsValue_toDigits`: digits write their number;
- `Json.parse_intText`: an integer of 64 bits, signed or not, reads back;
- `Json.parse_stringText`: a string reads back, whatever its characters.
-/

namespace Crossing

namespace Json

/-! ### Digits -/

/-- The digit for a number below ten has that value. -/
theorem digitValue?_digitChar {n : Nat} (hn : n < 10) : digitValue? n.digitChar = some n := by
  revert n
  decide

/-- The digit for a number below ten is a digit. -/
theorem isDigit_digitChar {n : Nat} (hn : n < 10) : isDigit n.digitChar = true := by
  rw [isDigit, digitValue?_digitChar hn]
  rfl

/-- One more digit multiplies by ten. -/
theorem digitsValue_append_singleton (cs : List Char) {n : Nat} (hn : n < 10) :
    digitsValue (cs ++ [n.digitChar]) = 10 * digitsValue cs + n := by
  rw [digitsValue, List.foldl_append, List.foldl_cons, List.foldl_nil, digitValue?_digitChar hn]
  rfl

/-- The digits of a number: those of its tenth and one more. -/
theorem toDigits_step {n : Nat} (hn : 10 ≤ n) :
    Nat.toDigits 10 n = Nat.toDigits 10 (n / 10) ++ [(n % 10).digitChar] :=
  Nat.toDigits_of_base_le (by decide) hn

/-- The digits of a number have that value. -/
theorem digitsValue_toDigits (n : Nat) : digitsValue (Nat.toDigits 10 n) = n := by
  induction n using Nat.strongRecOn with
  | ind n ih =>
    rcases Nat.lt_or_ge n 10 with hn | hn
    · rw [Nat.toDigits_of_lt_base hn]
      have := digitsValue_append_singleton [] hn
      simpa [digitsValue] using this
    · have hlt : n / 10 < n := by omega
      rw [toDigits_step hn, digitsValue_append_singleton _ (Nat.mod_lt n (by decide)), ih _ hlt]
      omega

/-- The digits of a number are digits. -/
theorem isDigit_of_mem_toDigits {n : Nat} {c : Char} (hc : c ∈ Nat.toDigits 10 n) :
    isDigit c = true := by
  induction n using Nat.strongRecOn with
  | ind n ih =>
    rcases Nat.lt_or_ge n 10 with hn | hn
    · rw [Nat.toDigits_of_lt_base hn] at hc
      obtain rfl := List.mem_singleton.mp hc
      exact isDigit_digitChar hn
    · rw [toDigits_step hn] at hc
      rcases List.mem_append.mp hc with hc | hc
      · exact ih _ (by omega) hc
      · obtain rfl := List.mem_singleton.mp hc
        exact isDigit_digitChar (Nat.mod_lt n (by decide))

/-- A number that is not zero does not start with a zero. -/
theorem exists_toDigits_cons {n : Nat} (hn : n ≠ 0) :
    ∃ c cs, Nat.toDigits 10 n = c :: cs ∧ c ≠ '0' ∧ isDigit c = true := by
  induction n using Nat.strongRecOn with
  | ind n ih =>
    rcases Nat.lt_or_ge n 10 with hlt | hge
    · refine ⟨n.digitChar, [], Nat.toDigits_of_lt_base hlt, fun h => ?_, isDigit_digitChar hlt⟩
      exact hn (Nat.digitChar_eq_zero.mp h)
    · obtain ⟨c, cs, hcs, hc, hdigit⟩ := ih (n / 10) (by omega) (by omega)
      refine ⟨c, cs ++ [(n % 10).digitChar], ?_, hc, hdigit⟩
      rw [toDigits_step hge, hcs, List.cons_append]

/-! ### Integers -/

/-- The digits of a number are all taken. -/
theorem takeWhile_toDigits (n : Nat) :
    (Nat.toDigits 10 n).takeWhile isDigit = Nat.toDigits 10 n :=
  List.takeWhile_eq_self_iff.mpr fun _ hc => isDigit_of_mem_toDigits hc

/-- Nothing is left behind the digits of a number. -/
theorem dropWhile_toDigits (n : Nat) : (Nat.toDigits 10 n).dropWhile isDigit = [] :=
  List.dropWhile_eq_nil_iff.mpr fun _ hc => isDigit_of_mem_toDigits hc

/-- Digits that end a text are read as what they write. -/
theorem readNumber_toDigits (negative : Bool) {n : Nat} {j : Json}
    (hj : ofDigits? negative n = some j) :
    readNumber negative (Nat.toDigits 10 n) = .ok (j, []) := by
  have hread : ∀ digits, readFraction negative n digits [] = .ok (j, []) := by
    intro digits
    simp only [readFraction, hj]
  by_cases hn : n = 0
  · obtain rfl := hn
    exact hread ['0']
  · obtain ⟨c, cs, hcs, hc, hdigit⟩ := exists_toDigits_cons hn
    have htake := takeWhile_toDigits n
    have hdrop := dropWhile_toDigits n
    have hvalue := digitsValue_toDigits n
    rw [hcs] at htake hdrop hvalue ⊢
    simp only [readNumber, if_neg hc, if_pos hdigit, htake, hdrop, hvalue]
    exact hread _

/-- A digit is no blank and starts nothing but a number. -/
theorem readValue_digit {fuel depth : Nat} {c : Char} {cs : List Char} (hc : isDigit c = true) :
    readValue (fuel + 1) depth (c :: cs) = readNumber false (c :: cs) := by
  have hne : ∀ d : Char, isDigit d = false → c ≠ d := by
    rintro d hd rfl
    rw [hd] at hc
    cases hc
  have hspace : skipSpace (c :: cs) = c :: cs := by
    have : isSpace c = false := by
      simp [isSpace, hne ' ' rfl, hne '\t' rfl, hne '\n' rfl, hne '\r' rfl]
    rw [skipSpace, List.dropWhile_cons_of_neg (by simp [this])]
  rw [readValue, hspace]
  simp only [if_neg (hne 'n' rfl), if_neg (hne 't' rfl), if_neg (hne 'f' rfl),
    if_neg (hne '-' rfl), if_pos hc]

/-- A sign in front starts a negative number. -/
theorem readValue_minus {fuel depth : Nat} {cs : List Char} :
    readValue (fuel + 1) depth ('-' :: cs) = readNumber true cs := by
  rw [readValue]
  rfl

/-- A text is read to its end. -/
theorem parse_of_readValue {s : String} {j : Json}
    (h : ∀ fuel, readValue (fuel + 1) maxNesting s.toList = .ok (j, [])) : parse s = .ok j := by
  have hwhole : readWhole s.toList = .ok j := by
    rw [readWhole, h]
    rfl
  simp only [parse, hwhole]

/-- The text of a number starts with a digit. -/
theorem isDigit_head {n : Nat} : ∃ c cs, Nat.toDigits 10 n = c :: cs ∧ isDigit c = true := by
  by_cases hn : n = 0
  · obtain rfl := hn
    exact ⟨'0', [], rfl, rfl⟩
  · obtain ⟨c, cs, hcs, -, hdigit⟩ := exists_toDigits_cons hn
    exact ⟨c, cs, hcs, hdigit⟩

/-- The text of an integer is that of a number, after a minus if it is negative. -/
theorem readNumber_intText {i : Int} (hlow : -9223372036854775808 ≤ i)
    (hhigh : i ≤ 18446744073709551615) :
    (∃ cs, (intText i).toList = '-' :: cs ∧ readNumber true cs = .ok (.int i, [])) ∨
      ∃ c cs, (intText i).toList = c :: cs ∧ isDigit c = true ∧
        readNumber false (c :: cs) = .ok (.int i, []) := by
  rw [intText]
  split
  -- the sign is in front of the digits, or there is none
  · rename_i hneg
    have htext : ("-" ++ natText i.natAbs).toList = '-' :: Nat.toDigits 10 i.natAbs := by
      simp [natText]
    have hj : ofDigits? true i.natAbs = some (.int i) := by
      rw [ofDigits?, if_pos rfl, if_pos ⟨by omega, by omega⟩]
      exact congrArg (some ∘ Json.int) (by omega)
    exact .inl ⟨_, htext, readNumber_toDigits true hj⟩
  · rename_i hpos
    have htext : (natText i.natAbs).toList = Nat.toDigits 10 i.natAbs := by
      simp [natText]
    have hj : ofDigits? false i.natAbs = some (.int i) := by
      rw [ofDigits?, if_neg (by decide), if_pos (by omega)]
      exact congrArg (some ∘ Json.int) (by omega)
    obtain ⟨c, cs, hcs, hdigit⟩ := isDigit_head (n := i.natAbs)
    exact .inr ⟨c, cs, htext.trans hcs, hdigit, hcs ▸ readNumber_toDigits false hj⟩

/-- An integer reads back. -/
theorem parse_intText {i : Int} (hlow : -9223372036854775808 ≤ i)
    (hhigh : i ≤ 18446744073709551615) : parse (intText i) = .ok (.int i) := by
  refine parse_of_readValue fun fuel => ?_
  obtain ⟨cs, htext, hnumber⟩ | ⟨c, cs, htext, hdigit, hnumber⟩ := readNumber_intText hlow hhigh
  · rw [htext, readValue_minus, hnumber]
  · rw [htext, readValue_digit hdigit, hnumber]

/-! ### Doubles -/

/-- A decimal starts with a digit. -/
theorem isDigit_head_positional (d : Decimal) :
    ∃ c cs, d.positional.toList = c :: cs ∧ isDigit c = true := by
  obtain ⟨c, cs, hcs, hc⟩ := isDigit_head (n := d.digits)
  unfold Decimal.positional
  by_cases hwhole : 0 ≤ d.exponent
  · simp only [if_pos hwhole, hcs]
    exact ⟨c, cs ++ ((Decimal.zeros d.exponent.toNat).toList ++ ".0".toList), by simp, hc⟩
  by_cases hpoint : 0 < d.point
  · obtain ⟨n, hn⟩ : ∃ n, d.point.toNat = n + 1 := ⟨d.point.toNat - 1, by omega⟩
    simp only [if_neg hwhole, if_pos hpoint, hcs, hn]
    exact ⟨c, cs.take n ++ ('.' :: cs.drop n), by simp, hc⟩
  · simp only [if_neg hwhole, if_neg hpoint]
    exact ⟨'0', '.' :: ((Decimal.zeros (-d.point).toNat).toList ++ Nat.toDigits 10 d.digits),
      by simp, rfl⟩

/-- The text of a decimal starts with a digit. -/
theorem isDigit_head_scientific (d : Decimal) :
    ∃ c cs, d.scientific.toList = c :: cs ∧ isDigit c = true := by
  obtain ⟨c, cs, hcs, hc⟩ := isDigit_head (n := d.digits)
  unfold Decimal.scientific
  rw [hcs]
  cases cs with
  | nil => exact ⟨c, _, by simp; rfl, hc⟩
  | cons e cs => exact ⟨c, _, by simp; rfl, hc⟩

/-- The text of a double starts with a minus or a digit. -/
theorem head_jsonText (x : Float) :
    ∃ c cs, (jsonText x).toList = c :: cs ∧ (c = '-' ∨ isDigit c = true) := by
  unfold jsonText
  generalize (Binary.ofFloat x).shortest .toEven = d
  obtain ⟨c, cs, hcs, hc⟩ : ∃ c cs, (if d.digits = 0 ∨ (-5 < d.point ∧ d.point ≤ 16)
      then d.positional else d.scientific).toList = c :: cs ∧ isDigit c = true := by
    split
    · exact isDigit_head_positional d
    · exact isDigit_head_scientific d
  unfold signed
  split
  · exact ⟨'-', c :: cs, by simp [hcs], .inl rfl⟩
  · exact ⟨c, cs, hcs, .inr hc⟩

/-! ### Strings -/

/-- Four characters are four bytes at least. -/
theorem four_le_byteLength (a b c d : Char) (rest : List Char) :
    4 ≤ byteLength (a :: b :: c :: d :: rest) := by
  have := Char.utf8Size_pos a
  have := Char.utf8Size_pos b
  have := Char.utf8Size_pos c
  have := Char.utf8Size_pos d
  simp only [byteLength, List.foldr_cons]
  omega

/-- A code unit that is no surrogate is the character of its number. -/
theorem readUnicode_quad {a b c d : Char} {n : Nat} (h : hexQuad? a b c d = some n)
    (hn : n < 0xd800) (rest : List Char) :
    readUnicode (a :: b :: c :: d :: rest) = .ok (Char.ofNat n, rest) := by
  have hquad : readHexQuad (a :: b :: c :: d :: rest) = .ok (n, rest) := by
    rw [readHexQuad, if_neg (Nat.not_lt.mpr (four_le_byteLength a b c d rest))]
    simp only [h]
  rw [readUnicode, hquad]
  change (if 0xdc00 ≤ n ∧ n ≤ 0xdfff then _ else if n < 0xd800 ∨ 0xdbff < n then _ else _) = _
  rw [if_neg (by omega), if_pos (.inl hn)]
  rfl

/-- The digit for a number below sixteen has that value in an escape. -/
theorem hexValue?_digitChar {n : Nat} (hn : n < 16) : hexValue? n.digitChar = some n := by
  revert n
  decide

/-- How control characters are escaped. -/
theorem hexQuad?_control {n : Nat} (hn : n < 0x20) :
    ∃ c d, hexQuad? '0' '0' c d = some n ∧
      (if n < 0x10 then ['\\', 'u', '0', '0', '0'] ++ Nat.toDigits 16 n
        else ['\\', 'u', '0', '0'] ++ Nat.toDigits 16 n) = ['\\', 'u', '0', '0', c, d] := by
  -- a control character has one digit, or a `1` and another digit
  by_cases hlow : n < 0x10
  · refine ⟨'0', n.digitChar, ?_, ?_⟩
    · simp [hexQuad?, hexValue?_digitChar hlow, show hexValue? '0' = some 0 from rfl]
    · rw [if_pos hlow, Nat.toDigits_of_lt_base hlow]
      rfl
  · have hdiv : n / 16 = 1 := by omega
    have hdigits : Nat.toDigits 16 n = ['1', (n % 16).digitChar] := by
      rw [Nat.toDigits_of_base_le (by decide) (by omega), hdiv]
      rfl
    refine ⟨'1', (n % 16).digitChar, ?_, ?_⟩
    · have hmod := hexValue?_digitChar (Nat.mod_lt n (by decide : 0 < 16))
      simp only [hexQuad?, hmod, show hexValue? '0' = some 0 from rfl,
        show hexValue? '1' = some 1 from rfl]
      exact congrArg some (by omega)
    · rw [if_neg hlow, hdigits]
      rfl

/-- A character reads back. -/
theorem readChars_escapeChar (fuel : Nat) (c : Char) (cs : List Char) :
    readChars (fuel + 1) (escapeChar c ++ cs) =
      (readChars fuel cs).map fun part => (c :: part.1, part.2) := by
  have hmap : (readChars fuel cs >>= fun part => pure (c :: part.1, part.2)) =
      (readChars fuel cs).map fun part => (c :: part.1, part.2) := by
    cases readChars fuel cs <;> rfl
  have hescape : ∀ (d : Char) (tail : List Char), readEscape (d :: tail) = .ok (c, cs) →
      readChars (fuel + 1) ('\\' :: d :: tail) =
        (readChars fuel cs).map fun part => (c :: part.1, part.2) := by
    intro d tail h
    rw [readChars, if_neg (by decide), if_pos rfl, h]
    exact hmap
  unfold escapeChar
  -- the three characters that are escaped by their own letters come first, then control characters
  split
  · rename_i h
    obtain rfl := h
    exact hescape '"' cs rfl
  split
  · rename_i h
    obtain rfl := h
    exact hescape '\\' cs rfl
  split
  · rename_i h
    obtain rfl := h
    exact hescape 'b' cs rfl
  split
  · rename_i h
    obtain rfl := h
    exact hescape 'f' cs rfl
  split
  · rename_i h
    obtain rfl := h
    exact hescape 'n' cs rfl
  split
  · rename_i h
    obtain rfl := h
    exact hescape 'r' cs rfl
  split
  · rename_i h
    obtain rfl := h
    exact hescape 't' cs rfl
  · rename_i hquote hbackslash _ _ _ _ _
    by_cases hcontrol : c.toNat < 0x20
    · obtain ⟨a, b, hquad, htext⟩ := hexQuad?_control hcontrol
      have hread : readEscape ('u' :: '0' :: '0' :: a :: b :: cs) = .ok (c, cs) := by
        change readUnicode ('0' :: '0' :: a :: b :: cs) = _
        rw [readUnicode_quad hquad (by omega), Char.ofNat_toNat]
      have heq : (if c.toNat < 0x10 then ['\\', 'u', '0', '0', '0'] ++ Nat.toDigits 16 c.toNat
          else if c.toNat < 0x20 then ['\\', 'u', '0', '0'] ++ Nat.toDigits 16 c.toNat else [c]) =
          ['\\', 'u', '0', '0', a, b] := by
        rw [if_pos hcontrol]
        exact htext
      rw [heq]
      exact hescape 'u' _ hread
    · rw [if_neg (by omega), if_neg hcontrol, List.singleton_append, readChars, if_neg hquote,
        if_neg hbackslash, if_neg hcontrol]
      exact hmap

/-- Characters up to the closing quote read back. -/
theorem readChars_escaped (s : List Char) {fuel : Nat} (hfuel : s.length < fuel)
    (rest : List Char) : readChars fuel (s.flatMap escapeChar ++ '"' :: rest) = .ok (s, rest) := by
  induction s generalizing fuel with
  | nil =>
    obtain ⟨fuel, rfl⟩ := Nat.exists_eq_add_of_lt hfuel
    rfl
  | cons c s ih =>
    obtain ⟨fuel, rfl⟩ : ∃ n, fuel = n + 1 := ⟨fuel - 1, by omega⟩
    rw [List.flatMap_cons, List.append_assoc, readChars_escapeChar,
      ih (by simpa using hfuel)]
    rfl

/-- An escaped text is no shorter. -/
theorem length_le_flatMap (s : List Char) : s.length ≤ (s.flatMap escapeChar).length := by
  induction s with
  | nil => exact Nat.le_refl _
  | cons c s ih =>
    have : 1 ≤ (escapeChar c).length := by
      unfold escapeChar
      repeat' split
      all_goals simp
    rw [List.flatMap_cons, List.length_append, List.length_cons]
    omega

/-- The text of a string in characters. -/
theorem toList_stringText (s : String) :
    (stringText s).toList = '"' :: (s.toList.flatMap escapeChar ++ ['"']) := by
  simp [stringText]

/-- A string reads back, whatever follows it. -/
theorem readString_escaped (s : String) (rest : List Char) :
    readString (s.toList.flatMap escapeChar ++ '"' :: rest) = .ok (s, rest) := by
  have hfuel : s.toList.length < (s.toList.flatMap escapeChar ++ '"' :: rest).length + 1 := by
    have := length_le_flatMap s.toList
    rw [List.length_append]
    omega
  rw [readString, readChars_escaped _ hfuel]
  change Except.ok (String.ofList s.toList, rest) = _
  rw [String.ofList_toList]

/-- The text of a string is read back, whatever follows. -/
theorem readValue_quote {fuel depth : Nat} (s : String) (rest : List Char) :
    readValue (fuel + 1) depth ('"' :: (s.toList.flatMap escapeChar ++ '"' :: rest)) =
      .ok (.text s, rest) := by
  rw [readValue]
  change (readString (s.toList.flatMap escapeChar ++ '"' :: rest) >>= fun part =>
    pure (Json.text part.1, part.2) : Except Stuck (Part Json)) = _
  rw [readString_escaped]
  rfl

/-- The text of a string is read back as a whole. -/
theorem parse_stringText (s : String) : parse (stringText s) = .ok (.text s) :=
  parse_of_readValue fun _ => by rw [toList_stringText, readValue_quote]

end Json

end Crossing
