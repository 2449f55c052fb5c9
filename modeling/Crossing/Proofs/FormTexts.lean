import Crossing.Objects.Printing
import Crossing.Source.Form
import Crossing.Proofs.Numerals

/-!
# Texts of forms

A form is written as the text of its parts, with brackets around them and blanks between
them. The reader cuts such a text into tokens again, whatever follows it, and puts the
tokens together to the form.

- `Form.chars`: the text of a form, `Form.tokens`: the tokens of this text;
- `Form.IsPlain`: every part reads back by itself;
- `Form.scan_chars`: the text of a form is cut into its tokens;
- `Form.readForm_tokens`: the tokens of a form are read as the form;
- `Form.readAll_chars`: the text of a form is read as this form and no other.
-/

namespace Crossing

variable {c : Char} {cs rest : List Char} {n : Nat}

/-! ### Cutting text into tokens -/

namespace Token

/-- What ends an atom: the end of the text, or a delimiter. -/
def EndsAtom (rest : List Char) : Prop := ∀ c ∈ rest.head?, isDelimiter c = true

theorem endsAtom_nil : EndsAtom [] := nofun

/-- A delimiter ends an atom. -/
theorem endsAtom_cons (hc : isDelimiter c = true) (cs : List Char) : EndsAtom (c :: cs) := by
  intro d hd
  cases hd
  exact hc

/-- A string is taken off with its closing quote. -/
theorem length_lt_of_scanString {s : List Char} (h : scanString cs = .ok (s, rest)) :
    rest.length < cs.length := by
  fun_induction scanString cs generalizing s rest with
  | case1 | case3 | case5 | case7 | case9 => cases h
  | case2 =>
    cases h
    exact Nat.zero_lt_one
  | case4 =>
    cases h
    exact Nat.lt_succ_self _
  | case6 d cs e _ s rest hrest _ ih =>
    cases h
    exact Nat.lt_succ_of_lt (Nat.lt_succ_of_lt (ih hrest))
  | case8 c d cs _ _ s rest hrest ih =>
    cases h
    exact Nat.lt_succ_of_lt (ih hrest)

/-- What is left after a comment is no longer than the text. -/
theorem length_skipComment_le (cs : List Char) : (skipComment cs).length ≤ cs.length := by
  rw [skipComment, List.length_drop]
  exact (Nat.sub_le _ _).trans (List.dropWhile_sublist _).length_le

/-- More fuel than there are characters does not change the tokens. -/
theorem scanWithin_eq {m n : Nat} (hm : cs.length < m) (hn : cs.length < n) :
    scanWithin m cs = scanWithin n cs := by
  -- the induction is on the fuel, for all texts that it suffices for
  induction m generalizing n cs with
  | zero => exact absurd hm (Nat.not_lt_zero _)
  | succ m ih =>
    obtain ⟨n, rfl⟩ : ∃ k, n = k + 1 := ⟨n - 1, by omega⟩
    cases cs with
    | nil => rfl
    | cons c cs =>
      rw [List.length_cons] at hm hn
      have hsame : ∀ ds : List Char, ds.length ≤ cs.length → scanWithin m ds = scanWithin n ds :=
        fun ds hds => ih (by omega) (by omega)
      -- what is left of a text is shorter, and so the fuel that is left suffices
      have hafter : ∀ s rest, scanString cs = .ok (s, rest) →
          scanWithin m rest = scanWithin n rest :=
        fun s rest h => hsame rest (Nat.le_of_lt (length_lt_of_scanString h))
      rw [scanWithin, scanWithin, hsame cs (Nat.le_refl _),
        hsame _ (length_skipComment_le cs), hsame _ (List.dropWhile_sublist _).length_le]
      cases hstring : scanString cs with
      | error e => rfl
      | ok part => simp only [hafter part.1 part.2 hstring]

/-- Fuel beyond the length of the text makes no difference. -/
theorem scan_eq (hn : cs.length < n) : scanWithin n cs = scan cs :=
  scanWithin_eq hn (Nat.lt_succ_self _)

theorem scan_blank (cs : List Char) : scan (' ' :: cs) = scan cs := rfl

theorem scan_opening (cs : List Char) : scan ('(' :: cs) = .opening :: scan cs := rfl

theorem scan_closing (cs : List Char) : scan (')' :: cs) = .closing :: scan cs := rfl

theorem scan_openingVector (cs : List Char) : scan ('[' :: cs) = .openingVector :: scan cs := rfl

theorem scan_closingVector (cs : List Char) : scan (']' :: cs) = .closingVector :: scan cs := rfl

/-- A dot before a blank stands alone. -/
theorem scan_dot (cs : List Char) : scan ('.' :: ' ' :: cs) = .dot :: scan cs := rfl

/-- What delimits nothing is no blank. -/
theorem isBlank_of_not_isDelimiter (hc : isDelimiter c = false) : isBlank c = false := by
  simp only [isDelimiter, Bool.or_eq_false_iff] at hc
  exact hc.1.1.1.1.1.1.1

/-- A check of each character, as a statement about each. -/
theorem not_isDelimiter_of_all (h : (cs.all fun d => !isDelimiter d) = true) :
    ∀ d ∈ cs, isDelimiter d = false := fun d hd => by
  simpa using List.all_eq_true.mp h d hd

/-- What is no delimiter belongs to an atom, up to a delimiter, unless it is a dot that stands
alone. -/
theorem scan_word (hword : ∀ d ∈ c :: cs, isDelimiter d = false)
    (halone : ¬(c = '.' ∧ standsAlone (cs ++ rest) = true)) (hrest : EndsAtom rest) :
    scan (c :: cs ++ rest) = .atom c cs :: scan rest := by
  have hc := hword c List.mem_cons_self
  have hcs : ∀ d ∈ cs, (!isDelimiter d) = true := fun d hd => by
    rw [hword d (List.mem_cons_of_mem c hd)]
    rfl
  -- what delimits is not in the word
  have hnot : ∀ d, isDelimiter d = true → c ≠ d := by
    rintro d hd rfl
    rw [hc] at hd
    cases hd
  -- the word is taken up to the delimiter that ends it
  have htake : (cs ++ rest).takeWhile (fun d => !isDelimiter d) = cs := by
    rw [List.takeWhile_append_of_pos hcs]
    cases rest with
    | nil => exact List.append_nil cs
    | cons d rest => simp [hrest d rfl]
  have hdrop : (cs ++ rest).dropWhile (fun d => !isDelimiter d) = rest := by
    rw [List.dropWhile_append_of_pos hcs]
    cases rest with
    | nil => rfl
    | cons d rest => simp [hrest d rfl]
  rw [List.cons_append, scan, scanWithin,
    if_neg (by rw [isBlank_of_not_isDelimiter hc]; exact Bool.false_ne_true),
    if_neg (hnot ';' rfl), if_neg (hnot '(' rfl), if_neg (hnot ')' rfl), if_neg (hnot '[' rfl),
    if_neg (hnot ']' rfl), if_neg (hnot '\'' rfl), if_neg (hnot '"' rfl), if_neg halone, htake,
    hdrop, scan_eq]
  rw [List.length_cons, List.length_append]
  omega

/-- A word that is no dot does not stand alone in front of a delimiter. -/
theorem not_standsAlone (hword : ∀ d ∈ c :: cs, isDelimiter d = false) (hdot : c :: cs ≠ ['.']) :
    ¬(c = '.' ∧ standsAlone (cs ++ rest) = true) := by
  rintro ⟨rfl, halone⟩
  cases cs with
  | nil => exact hdot rfl
  | cons d cs =>
    have hd := hword d (List.mem_cons_of_mem _ List.mem_cons_self)
    simp only [isDelimiter, Bool.or_eq_false_iff] at hd
    simp only [List.cons_append, standsAlone, hd] at halone
    cases halone

/-- A word up to its end is an atom, unless it is a single dot. -/
theorem scan_atom (hword : ∀ d ∈ c :: cs, isDelimiter d = false) (hdot : c :: cs ≠ ['.'])
    (hrest : EndsAtom rest) : scan (c :: cs ++ rest) = .atom c cs :: scan rest :=
  scan_word hword (not_standsAlone hword hdot) hrest

/-! ### Strings -/

/-- A string ends with the next quote. -/
theorem scanString_quote (cs : List Char) : scanString ('"' :: cs) = .ok ([], cs) := by
  cases cs <;> rfl

/-- A character that was escaped is read as the one it stands for. -/
theorem scanString_escape {d e : Char} {s : List Char} (hd : unescape? d = some e)
    (h : scanString cs = .ok (s, rest)) :
    scanString ('\\' :: d :: cs) = .ok (e :: s, rest) := by
  rw [scanString, if_neg (by decide), if_pos rfl]
  simp only [hd, h]

/-- Every other character of a string is read as itself. -/
theorem scanString_char {s : List Char} (hquote : c ≠ '"') (hescape : c ≠ '\\')
    (h : scanString cs = .ok (s, rest)) : scanString (c :: cs) = .ok (c :: s, rest) := by
  cases cs with
  | nil => cases h
  | cons d cs =>
    rw [scanString, if_neg hquote, if_neg hescape]
    simp only [h]

/-- A character that stands between quotes as itself, or escaped by a letter that the reader
knows. -/
def isPlainChar (c : Char) : Bool :=
  quoteChar c == [c] || c == '\n' || c == '\t' || c == '"' || c == '\\'

/-- A plain character is read back, escaped or not. -/
theorem scanString_quoteChar {s : List Char} (hc : isPlainChar c = true)
    (h : scanString cs = .ok (s, rest)) : scanString (quoteChar c ++ cs) = .ok (c :: s, rest) := by
  simp only [isPlainChar, Bool.or_eq_true, beq_iff_eq] at hc
  rcases hc with (((hc | rfl) | rfl) | rfl) | rfl
  · rw [hc]
    refine scanString_char ?_ ?_ h
    · rintro rfl
      cases hc
    · rintro rfl
      cases hc
  · exact scanString_escape rfl h
  · exact scanString_escape rfl h
  · exact scanString_escape rfl h
  · exact scanString_escape rfl h

/-- A string of plain characters is read back. The induction is on the characters. -/
theorem scanString_quoted {s : List Char} (hs : ∀ c ∈ s, isPlainChar c = true) :
    scanString (s.flatMap quoteChar ++ '"' :: rest) = .ok (s, rest) := by
  induction s with
  | nil => exact scanString_quote rest
  | cons c s ih =>
    rw [List.flatMap_cons, List.append_assoc]
    exact scanString_quoteChar (hs c List.mem_cons_self)
      (ih fun d hd => hs d (List.mem_cons_of_mem c hd))

/-- A string between quotes is one token. -/
theorem scan_quoted {s : String} (hs : ∀ c ∈ s.toList, isPlainChar c = true) (rest : List Char) :
    scan ((quoted s).toList ++ rest) = .text s :: scan rest := by
  have hstring : scanString (s.toList.flatMap quoteChar ++ '"' :: rest) =
      .ok (s.toList, rest) := scanString_quoted hs
  have htext : (quoted s).toList ++ rest = '"' :: (s.toList.flatMap quoteChar ++ '"' :: rest) := by
    simp [quoted]
  have hscan : scan ('"' :: (s.toList.flatMap quoteChar ++ '"' :: rest)) =
      .text (String.ofList s.toList) ::
        scanWithin ((s.toList.flatMap quoteChar ++ '"' :: rest).length + 1) rest := by
    rw [scan, scanWithin]
    simp only [hstring]
    rfl
  rw [htext, hscan, String.ofList_toList, scan_eq]
  simp only [List.length_cons, List.length_append]
  omega

end Token

/-! ### Atoms -/

namespace Form

/-- Characters that are one atom, which means the form. -/
def Spells (cs : List Char) (f : Form) : Prop :=
  ∃ c ds, cs = c :: ds ∧ (∀ d ∈ cs, Token.isDelimiter d = false) ∧ cs ≠ ['.'] ∧ ofAtom c ds = f

/-- A digit delimits nothing. -/
theorem isDelimiter_of_isDigit (hc : isDigit c = true) : Token.isDelimiter c = false := by
  have hne : ∀ d : Char, isDigit d = false → (c == d) = false := by
    intro d hd
    refine beq_false_of_ne ?_
    rintro rfl
    rw [hd] at hc
    cases hc
  simp only [Token.isDelimiter, Json.isBlank_of_isDigit hc, hne '(' rfl, hne ')' rfl, hne '[' rfl,
    hne ']' rfl, hne '"' rfl, hne '\'' rfl, hne ';' rfl, Bool.or_self]

/-- Digits are the fixnum that they write. -/
theorem readFixnum?_digits (i : Fixnum) (hi : 0 ≤ i.val) :
    readFixnum? (Nat.toDigits 10 i.val.natAbs) = some i := by
  obtain ⟨c, cs, hcs, hc⟩ := Json.isDigit_head (n := i.val.natAbs)
  have hsign : splitSign (Nat.toDigits 10 i.val.natAbs) =
      (false, Nat.toDigits 10 i.val.natAbs) := by
    rw [hcs, splitSign]
    · intro _ heq
      cases heq
      cases hc
    · intro _ heq
      cases heq
      cases hc
  have hall : (Nat.toDigits 10 i.val.natAbs).all isDigit = true :=
    List.all_eq_true.mpr fun _ => Json.isDigit_of_mem_toDigits
  have hne : Nat.toDigits 10 i.val.natAbs ≠ [] := by simp [hcs]
  simp only [readFixnum?, hsign, Json.digitsValue_toDigits]
  rw [if_pos ⟨hne, hall⟩, if_neg Bool.false_ne_true, Int.natAbs_of_nonneg hi, Fixnum.ofInt?_val]

/-- Digits after a minus are the fixnum below zero. -/
theorem readFixnum?_minus (i : Fixnum) (hi : i.val < 0) :
    readFixnum? ('-' :: Nat.toDigits 10 i.val.natAbs) = some i := by
  obtain ⟨c, cs, hcs, hc⟩ := Json.isDigit_head (n := i.val.natAbs)
  have hall : (Nat.toDigits 10 i.val.natAbs).all isDigit = true :=
    List.all_eq_true.mpr fun _ => Json.isDigit_of_mem_toDigits
  have hne : Nat.toDigits 10 i.val.natAbs ≠ [] := by simp [hcs]
  have hvalue : -(i.val.natAbs : Int) = i.val := by omega
  simp only [readFixnum?, splitSign, Json.digitsValue_toDigits]
  rw [if_pos ⟨hne, hall⟩, if_pos trivial, hvalue, Fixnum.ofInt?_val]

/-- The text of a fixnum is an atom that means it. -/
theorem spells_int (i : Fixnum) : Spells i.text.toList (.int i) := by
  have hdigits : ∀ d ∈ Nat.toDigits 10 i.val.natAbs, Token.isDelimiter d = false :=
    fun d hd => isDelimiter_of_isDigit (Json.isDigit_of_mem_toDigits hd)
  obtain ⟨c, cs, hcs, hc⟩ := Json.isDigit_head (n := i.val.natAbs)
  rw [Fixnum.text, intText]
  -- the sign is in front of the digits, or there is none
  split
  · rename_i hneg
    have htext : ("-" ++ natText i.val.natAbs).toList = '-' :: Nat.toDigits 10 i.val.natAbs := by
      simp [natText]
    refine ⟨_, _, htext, fun d hd => ?_, by simp [htext], ?_⟩
    · rw [htext] at hd
      rcases List.mem_cons.mp hd with rfl | hd
      · rfl
      · exact hdigits d hd
    · simp only [ofAtom, readFixnum?_minus i hneg]
  · rename_i hpos
    have htext : (natText i.val.natAbs).toList = Nat.toDigits 10 i.val.natAbs := by
      simp [natText]
    rw [htext]
    refine ⟨c, cs, hcs, hdigits, fun hdot => ?_, ?_⟩
    · rw [hcs] at hdot
      cases hdot
      cases hc
    · have hread := readFixnum?_digits i (by omega)
      rw [hcs] at hread
      simp only [ofAtom, hread]

/-! ### Atoms of floats -/

/-- Digits with a point between them. -/
def IsPositional (cs : List Char) : Prop :=
  ∃ c whole fraction, cs = c :: whole ++ '.' :: fraction ∧
    ∀ d ∈ c :: whole ++ fraction, isDigit d = true

/-- An integer as a double is written with a point and a zero. -/
theorem isPositional_natText (n : Nat) : IsPositional (natText n ++ ".0").toList := by
  obtain ⟨c, cs, hcs, -⟩ := Json.isDigit_head (n := n)
  refine ⟨c, cs, ['0'], by simp [natText, hcs], fun d hd => ?_⟩
  rcases List.mem_append.mp hd with hd | hd
  · exact Json.isDigit_of_mem_toDigits (hcs ▸ hd)
  · obtain rfl := List.mem_singleton.mp hd
    rfl

/-- A decimal is written out in digits, with a point among them. The cases are where the
point goes. -/
theorem isPositional_positional (d : Decimal) : IsPositional d.positional.toList := by
  obtain ⟨c, cs, hcs, hc⟩ := Json.isDigit_head (n := d.digits)
  have hdigits : ∀ b ∈ c :: cs, isDigit b = true :=
    fun b hb => Json.isDigit_of_mem_toDigits (hcs ▸ hb)
  have hzeros : ∀ n, ∀ b ∈ List.replicate n '0', isDigit b = true := fun n b hb => by
    rw [List.eq_of_mem_replicate hb]
    rfl
  unfold Decimal.positional
  simp only [hcs]
  -- the point goes behind all digits and some zeros, among the digits, or before zeros and the
  -- digits
  split
  · refine ⟨c, cs ++ List.replicate d.exponent.toNat '0', ['0'], by simp [Decimal.zeros],
      fun b hb => ?_⟩
    rw [← List.cons_append] at hb
    rcases List.mem_append.mp hb with hb | hb
    · exact (List.mem_append.mp hb).elim (hdigits b) (hzeros _ b)
    · obtain rfl := List.mem_singleton.mp hb
      rfl
  split
  · rename_i hpoint
    obtain ⟨n, hn⟩ : ∃ n, d.point.toNat = n + 1 := ⟨d.point.toNat - 1, by omega⟩
    refine ⟨c, cs.take n, cs.drop n, by simp [hn], fun b hb => hdigits b ?_⟩
    rwa [List.cons_append, List.take_append_drop] at hb
  · refine ⟨'0', [], List.replicate (-d.point).toNat '0' ++ c :: cs, by simp [Decimal.zeros],
      fun b hb => ?_⟩
    rcases List.mem_cons.mp hb with rfl | hb
    · rfl
    · exact (List.mem_append.mp (List.nil_append _ ▸ hb)).elim (hzeros _ b) (hdigits b)

/-- A finite double is written as digits with a point between them, after a minus if it is
negative. -/
theorem exists_plainText {x : Float} (h : x.isFinite = true) : ∃ cs, IsPositional cs ∧
    ((plainText x).toList = cs ∨ (plainText x).toList = '-' :: cs) := by
  obtain ⟨hnan, hinf⟩ : x.isNaN = false ∧ x.isInf = false := by
    change x.toModel.unpack.isFinite = true at h
    change x.toModel.unpack.isNaN = false ∧ x.toModel.unpack.isInf = false
    cases hx : x.toModel.unpack with
    | notANumber | infinity =>
      rw [hx] at h
      cases h
    | zero | finite => exact ⟨rfl, rfl⟩
  simp only [plainText, hnan, hinf, Bool.false_eq_true, if_false]
  -- the exponent is written out, so that the size is digits with a point
  have hmagnitude : IsPositional (if (Binary.ofFloat x).isWhole then
      natText (Binary.ofFloat x).whole ++ ".0" else
      ((Binary.ofFloat x).shortest .awayFromZero).positional).toList := by
    split
    · exact isPositional_natText _
    · exact isPositional_positional _
  refine ⟨_, hmagnitude, ?_⟩
  unfold signed
  -- the sign is in front of the size, or there is none
  split
  · exact .inr (by rw [String.toList_append]; rfl)
  · exact .inl rfl

/-- What has a point in it is no fixnum. -/
theorem readFixnum?_of_point (cs : List Char) {c : Char} (hc : c ≠ '.') (hmem : '.' ∈ cs) :
    readFixnum? (c :: cs) = none := by
  have hdigits : (splitSign (c :: cs)).2.all isDigit = false := by
    refine List.all_eq_false.mpr ⟨'.', ?_, by decide⟩
    unfold splitSign
    split
    · rename_i heq
      cases heq
      exact hmem
    · rename_i heq
      cases heq
      exact hmem
    · exact List.mem_cons_of_mem c hmem
  rw [readFixnum?]
  simp only [hdigits, Bool.false_eq_true, and_false, if_false]

/-- The text of a finite double is an atom that means it if it reads back as a number. -/
theorem spells_float {x : Float} (h : x.isFinite = true)
    (hread : readFloat? (plainText x).toList = some x) :
    Spells (plainText x).toList (.float x) := by
  obtain ⟨cs, ⟨c, whole, fraction, rfl, hdigits⟩, htext⟩ := exists_plainText h
  have hnot : ∀ d ∈ c :: whole ++ '.' :: fraction, Token.isDelimiter d = false := by
    intro d hd
    rcases List.mem_append.mp hd with hd | hd
    · exact isDelimiter_of_isDigit (hdigits d (List.mem_append_left _ hd))
    rcases List.mem_cons.mp hd with rfl | hd
    · rfl
    · exact isDelimiter_of_isDigit (hdigits d (List.mem_append_right _ hd))
  have hc := hdigits c (List.mem_cons_self)
  -- a text with a point is no integer, with a sign or without
  obtain htext | htext := htext <;> rw [htext] at hread ⊢
  · have hint : readFixnum? (c :: (whole ++ '.' :: fraction)) = none := by
      refine readFixnum?_of_point _ ?_ (by simp)
      rintro rfl
      cases hc
    refine ⟨c, whole ++ '.' :: fraction, rfl, hnot, by simp, ?_⟩
    rw [List.cons_append] at hread
    simp [ofAtom, hint, hread, hc]
  · have hint : readFixnum? ('-' :: (c :: whole ++ '.' :: fraction)) = none :=
      readFixnum?_of_point _ (by decide) (by simp)
    refine ⟨'-', c :: whole ++ '.' :: fraction, rfl, fun d hd => ?_, by simp, ?_⟩
    · rcases List.mem_cons.mp hd with rfl | hd
      · rfl
      · exact hnot d hd
    · simp only [ofAtom, hint, hread]
      simp

/-! ### Texts and tokens -/

mutual

/-- The text of a form. -/
def chars : Form → List Char
  | .int i => i.text.toList
  | .float x => (plainText x).toList
  | .text s => (quoted s).toList
  | .symbol name => name.toList
  | .list items => '(' :: ([' '].intercalate (charsIn items) ++ [')'])
  | .dotted items last =>
    '(' :: ([' '].intercalate (charsIn items) ++ ' ' :: '.' :: ' ' :: (chars last ++ [')']))
  | .vector items => '[' :: ([' '].intercalate (charsIn items) ++ [']'])

/-- The texts of some forms. -/
def charsIn : List Form → List (List Char)
  | [] => []
  | f :: fs => chars f :: charsIn fs

end

/-- The token of an atom. -/
def atomTokens : List Char → List Token
  | [] => []
  | c :: cs => [.atom c cs]

mutual

/-- The tokens of a form. -/
def tokens : Form → List Token
  | .int i => atomTokens i.text.toList
  | .float x => atomTokens (plainText x).toList
  | .text s => [.text s]
  | .symbol name => atomTokens name.toList
  | .list items => .opening :: (tokensIn items ++ [.closing])
  | .dotted items last => .opening :: (tokensIn items ++ .dot :: (tokens last ++ [.closing]))
  | .vector items => .openingVector :: (tokensIn items ++ [.closingVector])

/-- The tokens of some forms. -/
def tokensIn : List Form → List Token
  | [] => []
  | f :: fs => tokens f ++ tokensIn fs

end

/-- Whether a form may stand after the dot of a list: it is no list itself. -/
def endsList : Form → Bool
  | .list _ => false
  | .dotted _ _ => false
  | .symbol name => name != "nil"
  | _ => true

mutual

/-- A form that is written as it is read: every float and every name reads back, strings are
made of characters that do, and lists are neither empty nor written with a dot where they need
none. -/
def IsPlain : Form → Prop
  | .int _ => True
  | .float x => x.isFinite = true ∧ readFloat? (plainText x).toList = some x
  | .text s => ∀ c ∈ s.toList, Token.isPlainChar c = true
  | .symbol name => Spells name.toList (.symbol name)
  | .list items => items ≠ [] ∧ IsPlainIn items
  | .dotted items last => items ≠ [] ∧ IsPlainIn items ∧ last.endsList = true ∧ IsPlain last
  | .vector items => IsPlainIn items

/-- Each form of a list is plain. -/
def IsPlainIn : List Form → Prop
  | [] => True
  | f :: fs => IsPlain f ∧ IsPlainIn fs

end

/-! ### From texts to tokens -/

/-- What spells an atom is scanned as the token of that atom. -/
theorem scan_of_spells {f : Form} (h : Spells cs f) (hrest : Token.EndsAtom rest) :
    Token.scan (cs ++ rest) = atomTokens cs ++ Token.scan rest := by
  obtain ⟨c, ds, rfl, hword, hdot, -⟩ := h
  exact Token.scan_atom hword hdot hrest

mutual

/-- The text of a form is cut into its tokens, whatever follows that ends an atom. -/
theorem scan_chars : ∀ (f : Form) (rest : List Char), f.IsPlain → Token.EndsAtom rest →
    Token.scan (f.chars ++ rest) = f.tokens ++ Token.scan rest
  | .int i, _, _, hrest => scan_of_spells (spells_int i) hrest
  | .float _, _, hf, hrest => scan_of_spells (spells_float hf.1 hf.2) hrest
  | .text s, rest, hf, _ => Token.scan_quoted hf rest
  | .symbol _, _, hf, hrest => scan_of_spells hf hrest
  | .list items, rest, hf, _ => by
    have hitems := scan_charsIn items (')' :: rest) hf.2 (Token.endsAtom_cons rfl rest)
    rw [chars, tokens, List.cons_append, List.append_assoc, List.singleton_append,
      Token.scan_opening, hitems, Token.scan_closing, List.cons_append, List.append_assoc,
      List.singleton_append]
  | .dotted items last, rest, hf, _ => by
    have hlast := scan_chars last (')' :: rest) hf.2.2.2 (Token.endsAtom_cons rfl rest)
    have hitems := scan_charsIn items (' ' :: '.' :: ' ' :: (last.chars ++ ')' :: rest)) hf.2.1
      (Token.endsAtom_cons rfl _)
    rw [chars, tokens]
    simp only [List.cons_append, List.append_assoc, List.nil_append, Token.scan_opening, hitems,
      Token.scan_blank, Token.scan_dot, hlast, Token.scan_closing]
  | .vector items, rest, hf, _ => by
    have hitems := scan_charsIn items (']' :: rest) hf (Token.endsAtom_cons rfl rest)
    rw [chars, tokens, List.cons_append, List.append_assoc, List.singleton_append,
      Token.scan_openingVector, hitems, Token.scan_closingVector, List.cons_append,
      List.append_assoc, List.singleton_append]

theorem scan_charsIn : ∀ (fs : List Form) (rest : List Char), IsPlainIn fs →
    Token.EndsAtom rest →
    Token.scan ([' '].intercalate (charsIn fs) ++ rest) = tokensIn fs ++ Token.scan rest
  | [], _, _, _ => rfl
  | [f], rest, hfs, hrest => by
    rw [charsIn, charsIn, List.intercalate_singleton, scan_chars f rest hfs.1 hrest, tokensIn,
      tokensIn, List.append_nil]
  | f :: g :: fs, rest, hfs, hrest => by
    have hitems := scan_charsIn (g :: fs) rest hfs.2 hrest
    have hfirst := scan_chars f (' ' :: ([' '].intercalate (charsIn (g :: fs)) ++ rest)) hfs.1
      (Token.endsAtom_cons rfl _)
    rw [charsIn] at hitems hfirst
    rw [charsIn, charsIn, List.intercalate_cons_cons, List.append_assoc, List.append_assoc,
      List.singleton_append, hfirst, Token.scan_blank, hitems]
    exact (List.append_assoc _ _ _).symm

end

/-! ### From tokens to forms -/

/-- A token that a form starts with: it ends no list and no vector, and is no dot. -/
def IsStart (t : Token) : Prop := t ≠ .closing ∧ t ≠ .closingVector ∧ t ≠ .dot

/-- A plain form starts with a token that can start a form. -/
theorem exists_tokens_cons {f : Form} (hf : f.IsPlain) :
    ∃ t ts, f.tokens = t :: ts ∧ IsStart t := by
  have hatom : ∀ {cs f}, Spells cs f → ∃ t ts, atomTokens cs = t :: ts ∧ IsStart t := by
    rintro cs f ⟨c, ds, rfl, -⟩
    exact ⟨_, _, rfl, nofun, nofun, nofun⟩
  cases f with
  | int i => exact hatom (spells_int i)
  | float x => exact hatom (spells_float hf.1 hf.2)
  | symbol name => exact hatom hf
  | text | list | dotted | vector => exact ⟨_, _, rfl, nofun, nofun, nofun⟩

/-- The tokens of an atom are read as that atom. -/
theorem readForm_atom {f : Form} (h : Spells cs f) (ts : List Token)
    (hn : 2 * (atomTokens cs).length ≤ n) : readForm n (atomTokens cs ++ ts) = .ok (f, ts) := by
  obtain ⟨c, ds, rfl, -, -, rfl⟩ := h
  obtain ⟨n, rfl⟩ : ∃ m, n = m + 1 := ⟨n - 1, by
    simp only [atomTokens, List.length_singleton] at hn
    omega⟩
  rfl

/-- An item is taken off the rest of a list. -/
theorem readList_item {f : Form} {items : List Form} {last : Option Form} {ts us vs : List Token}
    {t : Token} (hclosing : t ≠ .closing) (hdot : t ≠ .dot)
    (hf : readForm n (t :: ts) = .ok (f, us))
    (hrest : readList n us = .ok ((items, last), vs)) :
    readList (n + 1) (t :: ts) = .ok ((f :: items, last), vs) := by
  rw [readList]
  · simp only [hf, Bind.bind, Except.bind, hrest]
  · exact hclosing
  · exact hdot

/-- An item is taken off the rest of a vector. -/
theorem readVector_item {f : Form} {items : List Form} {ts us vs : List Token} {t : Token}
    (ht : t ≠ .closingVector) (hf : readForm n (t :: ts) = .ok (f, us))
    (hrest : readVector n us = .ok (items, vs)) :
    readVector (n + 1) (t :: ts) = .ok (f :: items, vs) := by
  rw [readVector]
  · simp only [hf, Bind.bind, Except.bind, hrest]
  · exact ht

mutual

/-- The tokens of a form are read as the form, whatever follows: twice as much fuel as there
are tokens is enough. -/
theorem readForm_tokens : ∀ (f : Form) {n : Nat} (ts : List Token), f.IsPlain →
    2 * f.tokens.length ≤ n → readForm n (f.tokens ++ ts) = .ok (f, ts)
  | .int i, n, ts, _, hn => readForm_atom (spells_int i) ts hn
  | .float x, n, ts, hf, hn => readForm_atom (spells_float hf.1 hf.2) ts hn
  | .symbol name, n, ts, hf, hn => readForm_atom hf ts hn
  | .text s, n, ts, _, hn => by
    obtain ⟨n, rfl⟩ : ∃ m, n = m + 1 := ⟨n - 1, by
      simp only [tokens, List.length_singleton] at hn
      omega⟩
    rfl
  | .list items, n, ts, hf, hn => by
    simp only [tokens, List.length_cons, List.length_append] at hn
    obtain ⟨n, rfl⟩ : ∃ m, n = m + 1 := ⟨n - 1, by omega⟩
    have hitems := readList_tokensIn items (k := 0) (n := n) (.closing :: ts) hf.2 (fun m hm => by
      obtain ⟨m, rfl⟩ : ∃ l, m = l + 1 := ⟨m - 1, by omega⟩
      exact (rfl : readList (m + 1) (.closing :: ts) = .ok (([], none), ts))) (by omega)
    rw [List.append_nil] at hitems
    rw [tokens, List.cons_append, List.append_assoc, List.singleton_append, readForm]
    simp only [hitems]
    rfl
  | .dotted items last, n, ts, hf, hn => by
    simp only [tokens, List.length_cons, List.length_append] at hn
    obtain ⟨n, rfl⟩ : ∃ m, n = m + 1 := ⟨n - 1, by omega⟩
    have hitems := readList_tokensIn items (k := 2 * last.tokens.length) (n := n)
      (.dot :: (last.tokens ++ .closing :: ts)) hf.2.1 (fun m hm => by
        obtain ⟨m, rfl⟩ : ∃ l, m = l + 1 := ⟨m - 1, by omega⟩
        have hlast := readForm_tokens last (n := m) (.closing :: ts) hf.2.2.2 (by omega)
        rw [readList]
        simp only [hlast]
        exact (rfl : _ = Except.ok (([], some last), ts))) (by omega)
    rw [List.append_nil] at hitems
    rw [tokens, List.cons_append, List.append_assoc, List.cons_append, List.append_assoc,
      List.singleton_append, readForm]
    simp only [hitems]
    rfl
  | .vector items, n, ts, hf, hn => by
    simp only [tokens, List.length_cons, List.length_append] at hn
    obtain ⟨n, rfl⟩ : ∃ m, n = m + 1 := ⟨n - 1, by omega⟩
    have hitems := readVector_tokensIn items (n := n) ts hf (by omega)
    rw [tokens, List.cons_append, List.append_assoc, List.singleton_append, readForm]
    simp only [hitems]
    rfl

/-- The tokens of items are taken off a list, and what is read after them ends the list. -/
theorem readList_tokensIn : ∀ (fs : List Form) {k n : Nat} (ts : List Token) {items : List Form}
    {last : Option Form} {us : List Token}, IsPlainIn fs →
    (∀ m, k < m → readList m ts = .ok ((items, last), us)) →
    2 * (tokensIn fs).length + k < n →
    readList n (tokensIn fs ++ ts) = .ok ((fs ++ items, last), us)
  | [], k, n, ts, items, last, us, _, hts, hn => hts n (by simpa [tokensIn] using hn)
  | f :: fs, k, n, ts, items, last, us, hfs, hts, hn => by
    obtain ⟨t, tokens, hcons, ht⟩ := exists_tokens_cons hfs.1
    rw [tokensIn, List.length_append] at hn
    have hpos : 0 < f.tokens.length := by simp [hcons]
    obtain ⟨n, rfl⟩ : ∃ m, n = m + 1 := ⟨n - 1, by omega⟩
    have hfirst := readForm_tokens f (n := n) (tokensIn fs ++ ts) hfs.1 (by omega)
    have hrest := readList_tokensIn fs (n := n) ts hfs.2 hts (by omega)
    rw [tokensIn, List.append_assoc]
    rw [hcons] at hfirst ⊢
    exact readList_item ht.1 ht.2.2 hfirst hrest

/-- The tokens of items are taken off a vector. -/
theorem readVector_tokensIn : ∀ (fs : List Form) {n : Nat} (ts : List Token), IsPlainIn fs →
    2 * (tokensIn fs).length + 1 ≤ n →
    readVector n (tokensIn fs ++ .closingVector :: ts) = .ok (fs, ts)
  | [], n, ts, _, hn => by
    obtain ⟨n, rfl⟩ : ∃ m, n = m + 1 := ⟨n - 1, by omega⟩
    rfl
  | f :: fs, n, ts, hfs, hn => by
    obtain ⟨t, tokens, hcons, ht⟩ := exists_tokens_cons hfs.1
    rw [tokensIn, List.length_append] at hn
    have hpos : 0 < f.tokens.length := by simp [hcons]
    obtain ⟨n, rfl⟩ : ∃ m, n = m + 1 := ⟨n - 1, by omega⟩
    have hfirst := readForm_tokens f (n := n) (tokensIn fs ++ .closingVector :: ts) hfs.1 (by omega)
    have hrest := readVector_tokensIn fs (n := n) ts hfs.2 (by omega)
    rw [tokensIn, List.append_assoc]
    rw [hcons] at hfirst ⊢
    exact readVector_item ht.2.1 hfirst hrest

end

/-- The text of a form is read as this form and no other. -/
theorem readAll_chars {f : Form} (hf : f.IsPlain) :
    readAll (String.ofList f.chars) = .ok [f] := by
  have hscan : Token.scan f.chars = f.tokens := by
    have h := scan_chars f [] hf Token.endsAtom_nil
    rwa [List.append_nil, show Token.scan [] = [] from rfl, List.append_nil] at h
  obtain ⟨t, ts, hcons, -⟩ := exists_tokens_cons hf
  have hread := readForm_tokens f (n := 2 * ts.length + 3) [] hf (by
    rw [hcons, List.length_cons]
    omega)
  rw [List.append_nil, hcons] at hread
  simp only [readAll, String.toList_ofList, hscan, hcons, List.length_cons, readForms, hread]
  rfl

end Form

end Crossing
