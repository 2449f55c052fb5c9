import Crossing.Proofs.Renderings

/-!
# Readings of data

What the reader of data takes off a text, it would read in the same way if something
else followed, as long as a number does not go on there. So the blanks around the text
of a datum make no difference, and what has been read is a datum that has a text.

- `Json.Takes`: a reader takes a part off a text, whatever follows in its place;
- `Json.Proper`: what is read is in range, in order, and does not nest too deep;
- `Json.takes_all`: reading values, lists and objects does both;
- `Json.parse_trimBlanks`, `Json.proper_of_parse`: and so does reading a text;
- `Json.isNumber_of_parse`, `Json.exists_list_of_parse`: the first character tells what
  kind of datum a text reads as.
-/

namespace Crossing

namespace Json

variable {α β : Type} {cs rest t x y : List Char} {c : Char} {j : Json} {n : Nat}

/-- A reader takes `x` off a text in front of `rest` and reads `a`; it does so whatever
follows in the place of `rest`, with any fuel that is enough for `x`. -/
def Takes (read : Nat → List Char → Except Stuck (Part α)) (fuel : Nat) (x rest : List Char)
    (a : α) : Prop :=
  ∀ t n, Follows rest t → fuel ≤ n → read n (x ++ t) = .ok (a, t)

/-! ### Words and strings -/

/-- A word is read whatever comes after it. -/
theorem takes_word {word : List Char} {k : Json} (h : readWord k word cs = .ok (j, rest)) :
    k = j ∧ cs = word ++ rest ∧ ∀ t, readWord k word (word ++ t) = .ok (k, t) := by
  induction word generalizing cs with
  | nil =>
    cases h
    exact ⟨rfl, rfl, fun t => rfl⟩
  | cons w word ih =>
    cases cs with
    | nil => cases h
    | cons c cs =>
      rw [readWord] at h
      split at h
      · rename_i hc
        obtain ⟨hk, rfl, htakes⟩ := ih h
        refine ⟨hk, by rw [hc]; rfl, fun t => ?_⟩
        rw [List.cons_append, readWord, if_pos rfl, htakes t]
      · cases h

/-- Reads that go on after a part give a result iff both parts do. -/
theorem bind_eq_ok {p : Except Stuck α} {f : α → Except Stuck β} {b : β} :
    p >>= f = .ok b ↔ ∃ a, p = .ok a ∧ f a = .ok b := by
  cases p with
  | error e => exact ⟨nofun, fun ⟨_, h, _⟩ => nomatch h⟩
  | ok a => exact ⟨fun h => ⟨a, rfl, h⟩, fun ⟨_, h, hf⟩ => by cases h; exact hf⟩

/-- Four digits of an escape are read whatever comes after them. -/
theorem takes_hexQuad (h : readHexQuad cs = .ok (n, rest)) :
    ∃ x, cs = x ++ rest ∧ ∀ t, readHexQuad (x ++ t) = .ok (n, t) := by
  unfold readHexQuad at h
  -- four characters are needed, and each is a digit
  split at h
  · cases h
  · match cs, h with
    | a :: b :: c :: d :: tail, h =>
      cases hquad : hexQuad? a b c d with
      | none =>
        simp only [hquad] at h
        cases h
      | some m =>
        simp only [hquad] at h
        cases h
        refine ⟨[a, b, c, d], rfl, fun t => ?_⟩
        have hlength := four_le_byteLength a b c d t
        simp only [List.cons_append, List.nil_append, readHexQuad, hquad,
          if_neg (Nat.not_lt.mpr hlength)]

/-- The digits of an escape, or of two that make a pair, are read whatever comes after them.
-/
theorem takes_unicode (h : readUnicode cs = .ok (c, rest)) :
    ∃ x, cs = x ++ rest ∧ ∀ t, readUnicode (x ++ t) = .ok (c, t) := by
  obtain ⟨⟨n, tail⟩, hquad, hrest⟩ := bind_eq_ok.mp h
  obtain ⟨x, rfl, hx⟩ := takes_hexQuad hquad
  dsimp only at hrest
  -- two escapes make one character if the first is the upper half of a pair
  split at hrest
  · cases hrest
  rename_i htrailing
  split at hrest
  · rename_i hbasic
    cases hrest
    refine ⟨x, rfl, fun t => ?_⟩
    rw [readUnicode, hx t]
    simp only [Bind.bind, Except.bind, if_neg htrailing, if_pos hbasic]
    rfl
  rename_i hleading
  split at hrest
  · cases hrest
  · cases hrest
  -- the lower half follows in an escape of its own
  · rename_i tail
    obtain ⟨⟨m, tail⟩, hquad', hpart⟩ := bind_eq_ok.mp hrest
    obtain ⟨y, rfl, hy⟩ := takes_hexQuad hquad'
    dsimp only at hpart
    split at hpart
    · cases hpart
    · rename_i hpair
      obtain ⟨rfl, rfl⟩ := Prod.mk.inj (Except.ok.inj hpart)
      refine ⟨x ++ '\\' :: 'u' :: y, by simp, fun t => ?_⟩
      rw [List.append_assoc, readUnicode, hx]
      change (if _ then _ else if _ then _ else readHexQuad (y ++ t) >>= fun part =>
        if part.1 < 0xdc00 ∨ 0xdfff < part.1 then _ else pure (_, part.2)) = _
      rw [if_neg htrailing, if_neg hleading, hy t]
      exact if_neg hpair
  · cases hrest
  · cases hrest

/-- An escape is read whatever comes after it. -/
theorem takes_escape (h : readEscape cs = .ok (c, rest)) :
    ∃ x, cs = x ++ rest ∧ ∀ t, readEscape (x ++ t) = .ok (c, t) := by
  cases cs with
  | nil => cases h
  | cons d cs =>
    -- an escape by code units goes on, all others are one character
    by_cases hunicode : d = 'u'
    · obtain rfl := hunicode
      obtain ⟨x, rfl, hx⟩ := takes_unicode (show readUnicode cs = .ok (c, rest) from h)
      exact ⟨'u' :: x, rfl, hx⟩
    · simp only [readEscape, if_neg hunicode] at h
      refine ⟨[d], ?_⟩
      simp only [List.cons_append, List.nil_append, readEscape, if_neg hunicode]
      grind [stuckAt]

/-- Characters are taken off up to the closing quote, one or more in a round. -/
theorem takes_chars {fuel : Nat} {s : List Char} (h : readChars fuel cs = .ok (s, rest)) :
    ∃ x, cs = x ++ '"' :: rest ∧
      ∀ t n, x.length < n → readChars n (x ++ '"' :: t) = .ok (s, t) := by
  -- the induction is on the fuel; an escape takes one step of it as a character does
  induction fuel generalizing cs s with
  | zero => cases h
  | succ fuel ih =>
    cases cs with
    | nil => cases h
    | cons c cs =>
      rw [readChars] at h
      split at h
      · rename_i hquote
        cases h
        refine ⟨[], by rw [hquote]; rfl, fun t n hn => ?_⟩
        obtain ⟨n, rfl⟩ : ∃ m, n = m + 1 := ⟨n - 1, by simp at hn; omega⟩
        rw [List.nil_append, readChars, if_pos rfl]
      rename_i hquote
      split at h
      · rename_i hslash
        obtain ⟨⟨d, tail⟩, hescape, h⟩ := bind_eq_ok.mp h
        obtain ⟨⟨s, tail⟩, hchars, h⟩ := bind_eq_ok.mp h
        cases h
        obtain ⟨x, rfl, hx⟩ := takes_escape hescape
        obtain ⟨y, rfl, hy⟩ := ih hchars
        refine ⟨c :: (x ++ y), by simp, fun t n hn => ?_⟩
        simp only [List.length_cons, List.length_append] at hn
        obtain ⟨n, rfl⟩ : ∃ m, n = m + 1 := ⟨n - 1, by omega⟩
        rw [List.cons_append, List.append_assoc, readChars, if_neg hquote, if_pos hslash, hx]
        simp only [Bind.bind, Except.bind, hy t n (by omega)]
        rfl
      rename_i hslash
      split at h
      · cases h
      · rename_i hcontrol
        obtain ⟨⟨s, tail⟩, hchars, h⟩ := bind_eq_ok.mp h
        cases h
        obtain ⟨y, rfl, hy⟩ := ih hchars
        refine ⟨c :: y, rfl, fun t n hn => ?_⟩
        simp only [List.length_cons] at hn
        obtain ⟨n, rfl⟩ : ∃ m, n = m + 1 := ⟨n - 1, by omega⟩
        rw [List.cons_append, readChars, if_neg hquote, if_neg hslash, if_neg hcontrol]
        simp only [Bind.bind, Except.bind, hy t n (by omega)]
        rfl

/-- A string is read whatever comes after its quote. The induction is on the text, with an
escape as one step. -/
theorem takes_string {s : String} (h : readString cs = .ok (s, rest)) :
    ∃ x, cs = x ++ '"' :: rest ∧ ∀ t, readString (x ++ '"' :: t) = .ok (s, t) := by
  obtain ⟨⟨s, tail⟩, hchars, hs⟩ := bind_eq_ok.mp h
  cases hs
  obtain ⟨x, rfl, hx⟩ := takes_chars hchars
  refine ⟨x, rfl, fun t => ?_⟩
  have hlength : x.length < (x ++ '"' :: t).length := by
    simp only [List.length_append, List.length_cons]
    omega
  rw [readString, hx t _ (by omega)]
  rfl

/-! ### What is read -/

/-- A datum has a text, and it nests less deep than `depth`. -/
def Proper (depth : Nat) (j : Json) : Prop := j.isDatum = true ∧ j.nesting ≤ depth - 1

/-- Each of some items is proper. -/
def ProperIn (depth : Nat) (items : List Json) : Prop :=
  isDatumIn items = true ∧ nestingIn items ≤ depth - 1

/-- Each of some fields is proper, and they are in order. -/
def ProperOf (depth : Nat) (fields : Fields Json) : Prop :=
  (fields.map Prod.fst).Pairwise (· < ·) ∧ isDatumOf fields = true ∧
    nestingOf fields ≤ depth - 1

variable {fuel depth : Nat} {items : List Json} {fields : Fields Json} {name : String}

/-- A number is proper at each depth. -/
theorem IsNumber.proper (h : j.IsNumber) : Proper depth j := by
  cases j with
  | int i => exact ⟨decide_eq_true h, Nat.zero_le _⟩
  | float x finite => exact ⟨rfl, Nat.zero_le _⟩
  | _ => exact h.elim

/-- Proper items are items one after the other. -/
theorem ProperIn.cons (hj : Proper depth j) (hitems : ProperIn depth items) :
    ProperIn depth (j :: items) := by
  refine ⟨?_, Nat.max_le.mpr ⟨hj.2, hitems.2⟩⟩
  rw [isDatumIn, hj.1, hitems.1, Bool.and_self]

/-- A list is proper if its items are, one level deeper. -/
theorem ProperIn.list (hdepth : 1 < depth) (h : ProperIn (depth - 1) items) :
    Proper depth (.list items) := by
  refine ⟨h.1, ?_⟩
  rw [nesting]
  have hnesting := h.2
  omega

/-- An object is proper if its fields are, one level deeper. -/
theorem ProperOf.object (hdepth : 1 < depth) (h : ProperOf (depth - 1) fields) :
    Proper depth (.object fields) := by
  obtain ⟨horder, hdata, hnesting⟩ := h
  refine ⟨?_, ?_⟩
  · rw [isDatum, hdata, Bool.and_true]
    exact decide_eq_true horder
  · rw [nesting]
    omega

/-- The name that is put is the only new one. -/
theorem mem_keys_put {k : String} (h : k ∈ (fields.put name j).map Prod.fst) :
    k = name ∨ k ∈ fields.map Prod.fst := by
  induction fields with
  | nil => exact .inl (by simpa [Fields.put] using h)
  | cons p fields ih =>
    obtain ⟨l, v⟩ := p
    rw [Fields.put] at h
    split at h
    · rename_i heq
      obtain rfl := heq
      exact .inr h
    · split at h
      · simpa using h
      · obtain rfl | h := List.mem_cons.mp h
        · exact .inr List.mem_cons_self
        · exact (ih h).imp id (List.mem_cons_of_mem _)

/-- A field is put at its place. -/
theorem ProperOf.put (hj : Proper depth j) (h : ProperOf depth fields) (name : String) :
    ProperOf depth (fields.put name j) := by
  -- the induction is on the fields, and the new one goes where its name belongs
  induction fields with
  | nil =>
    refine ⟨List.pairwise_singleton _ _, ?_, Nat.max_le.mpr ⟨hj.2, Nat.zero_le _⟩⟩
    rw [Fields.put, isDatumOf, hj.1]
    rfl
  | cons p fields ih =>
    obtain ⟨k, v⟩ := p
    obtain ⟨horder, hdata, hnesting⟩ := h
    obtain ⟨hk, hrest⟩ := List.pairwise_cons.mp horder
    obtain ⟨hv, hrestData⟩ := Bool.and_eq_true_iff.mp hdata
    obtain ⟨hnv, hrestNesting⟩ := Nat.max_le.mp hnesting
    have htail : ProperOf depth fields := ⟨hrest, hrestData, hrestNesting⟩
    have hfirst : ∀ {k' : String} {rest : Fields Json}, (∀ l ∈ rest.map Prod.fst, k' < l) →
        ProperOf depth rest → ProperOf depth ((k', j) :: rest) := fun hlt hrest =>
      ⟨List.pairwise_cons.mpr ⟨hlt, hrest.1⟩, by rw [isDatumOf, hj.1, hrest.2.1, Bool.and_self],
        Nat.max_le.mpr ⟨hj.2, hrest.2.2⟩⟩
    rw [Fields.put]
    -- the name is in front, or is that of the first field, or goes further back
    split
    · rename_i heq
      obtain rfl := heq
      exact hfirst hk htail
    · rename_i hne
      split
      · rename_i hlt
        refine hfirst (List.forall_mem_cons.mpr ⟨hlt, fun l hl => String.lt_trans hlt (hk l hl)⟩) ?_
        exact ⟨horder, hdata, hnesting⟩
      · rename_i hnot
        obtain ⟨hput, hputData, hputNesting⟩ := ih htail
        refine ⟨List.pairwise_cons.mpr ⟨fun l hl => ?_, hput⟩,
          by rw [isDatumOf, hv, hputData, Bool.and_self], Nat.max_le.mpr ⟨hnv, hputNesting⟩⟩
        obtain rfl | hl := mem_keys_put hl
        · exact Std.lt_of_le_of_ne (Std.not_lt.mp hnot) (Ne.symm hne)
        · exact hk l hl

/-! ### Values -/

/-- A character that a value starts with. -/
def IsStart (c : Char) : Prop :=
  c = 'n' ∨ c = 't' ∨ c = 'f' ∨ c = '-' ∨ isDigit c = true ∨ c = '"' ∨ c = '[' ∨ c = '\x7b'

/-- What starts a value is no blank. -/
theorem IsStart.not_blank (h : IsStart c) : isBlank c = false := by
  obtain rfl | rfl | rfl | rfl | hdigit | rfl | rfl | rfl := h
  case inr.inr.inr.inr.inl => exact isBlank_of_isDigit hdigit
  all_goals rfl

/-- What separates values is a blank. -/
theorem isBlank_of_isSpace (h : isSpace c = true) : isBlank c = true := by
  have hc : c = ' ' ∨ c = '\t' ∨ c = '\n' ∨ c = '\r' := of_decide_eq_true h
  obtain rfl | rfl | rfl | rfl := hc <;> rfl

/-- A value starts with one of a few characters, after blanks. -/
theorem isStart_of_readValue {part : Part Json} (h : readValue fuel depth cs = .ok part) :
    ∃ c tail, skipSpace cs = c :: tail ∧ IsStart c := by
  -- a value starts with a character that is left when blanks are skipped
  cases fuel with
  | zero =>
    rw [readValue] at h
    cases h
  | succ fuel =>
    rw [readValue] at h
    cases hskip : skipSpace cs with
    | nil =>
      rw [hskip] at h
      cases h
    | cons c tail =>
      refine ⟨c, tail, rfl, ?_⟩
      by_contra hstart
      simp only [IsStart, not_or] at hstart
      obtain ⟨hn, ht, hf, hminus, hdigit, hquote, hbracket, hbrace⟩ := hstart
      simp only [hskip, if_neg hn, if_neg ht, if_neg hf, if_neg hminus, if_neg hdigit,
        if_neg hquote, if_neg hbracket, if_neg hbrace] at h
      cases h

/-- What is skipped in front of a character is skipped whatever follows this. -/
theorem exists_blanks (h : skipSpace cs = c :: x) :
    ∃ blanks, cs = blanks ++ c :: x ∧ (∀ t, skipSpace (blanks ++ c :: t) = c :: t) ∧
      ∀ d ∈ blanks, isBlank d = true := by
  refine ⟨cs.takeWhile isSpace, ?_, fun t => ?_,
    fun d hd => isBlank_of_isSpace (List.mem_takeWhile_imp hd)⟩
  · rw [← h]
    exact List.takeWhile_append_dropWhile.symm
  · rw [skipSpace_append fun d => List.mem_takeWhile_imp, skipSpace_cons (isSpace_of_skipSpace h)]

/-- What reading values with some fuel does. -/
def TakesValues (fuel : Nat) : Prop :=
  ∀ {depth cs j rest}, readValue fuel depth cs = .ok (j, rest) → Proper depth j ∧
    ∃ x, cs = x ++ rest ∧ EndsFirmly x ∧
      Takes (fun n => readValue n depth) (2 * x.length) x rest j

/-- What holds of items that are read with some fuel. -/
def TakesItems (fuel : Nat) : Prop :=
  ∀ {depth first cs items rest}, readItems fuel depth first cs = .ok (items, rest) →
    ProperIn depth items ∧ ∃ x, cs = x ++ rest ∧ EndsFirmly x ∧
      Takes (fun n => readItems n depth first) (2 * x.length + 1) x rest items

/-- What holds of fields that are read with some fuel. -/
def TakesFields (fuel : Nat) : Prop :=
  ∀ {depth first acc cs fields rest}, readFields fuel depth first acc cs = .ok (fields, rest) →
    ProperOf depth acc → ProperOf depth fields ∧ ∃ x, cs = x ++ rest ∧ EndsFirmly x ∧
      Takes (fun n => readFields n depth first acc) (2 * x.length + 1) x rest fields

/-- What holds of a single field that is read with some fuel. -/
def TakesField (fuel : Nat) : Prop :=
  ∀ {depth acc cs fields rest}, readField fuel depth acc cs = .ok (fields, rest) →
    ProperOf depth acc → ProperOf depth fields ∧ ∃ x, cs = x ++ rest ∧ EndsFirmly x ∧
      Takes (fun n => readField n depth acc) (2 * x.length) x rest fields

/-- With fuel for more than nothing, fuel is left. -/
theorem takes_of_succ {read : Nat → List Char → Except Stuck (Part α)} {a : α} (hn : 0 < n)
    (h : ∀ t m, Follows rest t → n ≤ m + 1 → read (m + 1) (x ++ t) = .ok (a, t)) :
    Takes read n x rest a := by
  intro t m ht hm
  obtain ⟨m, rfl⟩ : ∃ k, m = k + 1 := ⟨m - 1, by omega⟩
  exact h t m ht hm

/-- A quote starts a string. -/
theorem readValue_string (cs : List Char) : readValue (fuel + 1) depth ('"' :: cs) =
    (readString cs >>= fun part => pure (.text part.1, part.2)) := by
  rw [readValue, skipSpace_cons (by decide)]
  rfl

/-- A value that starts with its first character. -/
theorem takes_start (hitems : TakesItems fuel) (hfields : TakesFields fuel) (hc : IsStart c)
    (h : readValue (fuel + 1) depth (c :: cs) = .ok (j, rest)) :
    Proper depth j ∧ ∃ x, cs = x ++ rest ∧ EndsFirmly (c :: x) ∧
      Takes (fun n => readValue n depth) (2 * (c :: x).length) (c :: x) rest j := by
  have hword : ∀ {word : List Char} {k : Json}, readWord k word cs = .ok (j, rest) →
      Proper depth k → EndsFirmly (c :: word) →
      (∀ n t, readValue (n + 1) depth (c :: t) = readWord k word t) →
      Proper depth j ∧ ∃ x, cs = x ++ rest ∧ EndsFirmly (c :: x) ∧
        Takes (fun n => readValue n depth) (2 * (c :: x).length) (c :: x) rest j := by
    intro word k h hk hfirm hsame
    obtain ⟨rfl, rfl, htakes⟩ := takes_word h
    refine ⟨hk, word, rfl, hfirm, takes_of_succ (by simp) fun t m ht hm => ?_⟩
    exact (hsame m _).trans (htakes t)
  obtain rfl | rfl | rfl | rfl | hdigit | rfl | rfl | rfl := hc
  · have hsame : ∀ n t, readValue (n + 1) depth ('n' :: t) = readWord .null ['u', 'l', 'l'] t :=
      fun n t => by rw [readValue]; rfl
    exact hword ((hsame _ _).symm.trans h) ⟨rfl, Nat.zero_le _⟩
      (endsFirmly_concat rfl ['n', 'u', 'l']) hsame
  · have hsame : ∀ n t,
        readValue (n + 1) depth ('t' :: t) = readWord (.bool true) ['r', 'u', 'e'] t :=
      fun n t => by rw [readValue]; rfl
    exact hword ((hsame _ _).symm.trans h) ⟨rfl, Nat.zero_le _⟩
      (endsFirmly_concat rfl ['t', 'r', 'u']) hsame
  · have hsame : ∀ n t,
        readValue (n + 1) depth ('f' :: t) = readWord (.bool false) ['a', 'l', 's', 'e'] t :=
      fun n t => by rw [readValue]; rfl
    exact hword ((hsame _ _).symm.trans h) ⟨rfl, Nat.zero_le _⟩
      (endsFirmly_concat rfl ['f', 'a', 'l', 's']) hsame
  · rw [readValue_minus] at h
    obtain ⟨x, rfl, hx, hj, htakes⟩ := takes_number h
    refine ⟨hj.proper, x, rfl, hx.append_left ['-'], takes_of_succ (by simp) fun t m ht hm => ?_⟩
    rw [List.cons_append, readValue_minus, htakes t ht]
  · rw [readValue_digit hdigit] at h
    obtain ⟨x, hx, hfirm, hj, htakes⟩ := takes_number h
    cases x with
    | nil => exact absurd hfirm.length_pos (Nat.lt_irrefl 0)
    | cons d x =>
      obtain ⟨rfl, rfl⟩ := List.cons.inj hx
      refine ⟨hj.proper, x, rfl, hfirm, takes_of_succ (by simp) fun t m ht hm => ?_⟩
      rw [List.cons_append, readValue_digit hdigit, ← List.cons_append, htakes t ht]
  · rw [readValue_string] at h
    obtain ⟨⟨s, tail⟩, hstring, h⟩ := bind_eq_ok.mp h
    cases h
    obtain ⟨x, rfl, htakes⟩ := takes_string hstring
    refine ⟨⟨rfl, Nat.zero_le _⟩, x ++ ['"'], by simp, endsFirmly_concat rfl ('"' :: x),
      takes_of_succ (by simp) fun t m ht hm => ?_⟩
    rw [List.cons_append, readValue_string, List.append_assoc]
    exact bind_eq_ok.mpr ⟨(s, t), htakes t, rfl⟩
  · by_cases hdepth : 1 < depth
    · rw [readValue_bracket hdepth] at h
      obtain ⟨⟨items, tail⟩, hread, h⟩ := bind_eq_ok.mp h
      cases h
      obtain ⟨hproper, x, rfl, hx, htakes⟩ := hitems hread
      refine ⟨hproper.list hdepth, x, rfl, hx.append_left ['['],
        takes_of_succ (by simp) fun t m ht hm => ?_⟩
      rw [List.cons_append, readValue_bracket hdepth]
      simp only [List.length_cons] at hm
      exact bind_eq_ok.mpr ⟨(items, t), htakes t m ht (by omega), rfl⟩
    · rw [readValue] at h
      change (if depth ≤ 1 then _ else _) = _ at h
      rw [if_pos (Nat.not_lt.mp hdepth)] at h
      cases h
  · by_cases hdepth : 1 < depth
    · rw [readValue_brace hdepth] at h
      obtain ⟨⟨fields, tail⟩, hread, h⟩ := bind_eq_ok.mp h
      cases h
      obtain ⟨hproper, x, rfl, hx, htakes⟩ := hfields hread ⟨.nil, rfl, Nat.zero_le _⟩
      refine ⟨hproper.object hdepth, x, rfl, hx.append_left ['\x7b'],
        takes_of_succ (by simp) fun t m ht hm => ?_⟩
      rw [List.cons_append, readValue_brace hdepth]
      simp only [List.length_cons] at hm
      exact bind_eq_ok.mpr ⟨(fields, t), htakes t m ht (by omega), rfl⟩
    · rw [readValue] at h
      change (if depth ≤ 1 then _ else _) = _ at h
      rw [if_pos (Nat.not_lt.mp hdepth)] at h
      cases h

/-- A value after blanks. -/
theorem takesValues_succ (hitems : TakesItems fuel) (hfields : TakesFields fuel) :
    TakesValues (fuel + 1) := by
  intro depth cs j rest h
  obtain ⟨c, tail, hskip, hc⟩ := isStart_of_readValue h
  obtain ⟨blanks, rfl, hblanks, -⟩ := exists_blanks hskip
  rw [← readValue_skipSpace, hskip] at h
  obtain ⟨hj, x, rfl, hx, htakes⟩ := takes_start hitems hfields hc h
  refine ⟨hj, blanks ++ c :: x, by simp, hx.append_left blanks,
    takes_of_succ (by rw [List.length_append, List.length_cons]; omega) fun t m ht hm => ?_⟩
  rw [← readValue_skipSpace, List.append_assoc, List.cons_append, hblanks, ← List.cons_append]
  refine htakes t (m + 1) ht (Nat.le_trans ?_ hm)
  rw [List.length_append]
  omega

/-! ### Lists -/

/-- Reads an item and the items after it. -/
def readOn (fuel depth : Nat) (cs : List Char) : Except Stuck (Part (List Json)) := do
  let (j, cs) ← readValue fuel depth cs
  let (items, cs) ← readItems fuel depth false cs
  pure (j :: items, cs)

/-- The first item is read where the blanks end. -/
theorem readItems_first_eq (hskip : skipSpace cs = c :: x) (hc : c ≠ ']') :
    readItems (fuel + 1) depth true cs = readOn fuel depth (c :: x) := by
  rw [readItems, hskip]
  exact if_neg hc

/-- A further item is read behind a comma and blanks. -/
theorem readItems_comma_eq (hskip : skipSpace cs = ',' :: x) (hnext : skipSpace x = c :: y)
    (hc : c ≠ ']') : readItems (fuel + 1) depth false cs = readOn fuel depth (c :: y) := by
  rw [readItems]
  simp only [hskip, hnext, Char.reduceEq, if_false, if_true, Bool.false_eq_true]
  exact if_neg hc

/-- An item is taken off, and then the items after it. -/
theorem takes_readOn (hvalues : TakesValues fuel) (hitems : TakesItems fuel)
    (h : readOn fuel depth (c :: cs) = .ok (items, rest)) :
    ProperIn depth items ∧ ∃ x, cs = x ++ rest ∧ EndsFirmly (c :: x) ∧
      Takes (fun n => readOn n depth) (2 * (c :: x).length) (c :: x) rest items := by
  obtain ⟨⟨j, tail⟩, hvalue, h⟩ := bind_eq_ok.mp h
  obtain ⟨⟨items, tail⟩, hmore, h⟩ := bind_eq_ok.mp h
  cases h
  obtain ⟨hj, x, hx, hfirm, htakes⟩ := hvalues hvalue
  obtain ⟨hproper, y, rfl, hfirm', htakes'⟩ := hitems hmore
  cases x with
  | nil => exact absurd hfirm.length_pos (Nat.lt_irrefl 0)
  | cons d x =>
    obtain ⟨rfl, rfl⟩ := List.cons.inj hx
    refine ⟨hproper.cons hj, x ++ y, by simp, hfirm'.append_left (c :: x), fun t n ht hn => ?_⟩
    simp only [List.length_cons, List.length_append] at hn
    refine bind_eq_ok.mpr ⟨(j, y ++ t), ?_, bind_eq_ok.mpr ⟨(items, t), ?_, rfl⟩⟩
    · rw [List.cons_append, List.append_assoc, ← List.cons_append]
      exact htakes (y ++ t) n (ht.append y) (by rw [List.length_cons]; omega)
    · exact htakes' t n ht (by omega)

/-- Items are read with one more step of fuel: the next item, and then the others. -/
theorem takesItems_succ (hvalues : TakesValues fuel) (hitems : TakesItems fuel) :
    TakesItems (fuel + 1) := by
  intro depth first cs items rest h
  cases hskip : skipSpace cs with
  | nil =>
    rw [readItems, hskip] at h
    cases h
  | cons c tail =>
    obtain ⟨blanks, rfl, hblanks, -⟩ := exists_blanks hskip
    -- the bracket may close before an item
    by_cases hclose : c = ']'
    · obtain rfl := hclose
      rw [readItems, hskip] at h
      cases h
      refine ⟨⟨rfl, Nat.zero_le _⟩, blanks ++ [']'], by simp, endsFirmly_concat rfl blanks,
        takes_of_succ (Nat.succ_pos _) fun t m ht hm => ?_⟩
      rw [List.append_assoc, readItems]
      simp only [List.singleton_append, hblanks, if_true]
    · cases first with
      | true =>
        rw [readItems_first_eq hskip hclose] at h
        obtain ⟨hproper, x, rfl, hfirm, htakes⟩ := takes_readOn hvalues hitems h
        refine ⟨hproper, blanks ++ c :: x, by simp, hfirm.append_left blanks,
          takes_of_succ (Nat.succ_pos _) fun t m ht hm => ?_⟩
        simp only [List.length_append, List.length_cons] at hm
        rw [List.append_assoc, List.cons_append, readItems_first_eq (hblanks (x ++ t)) hclose]
        exact htakes t m ht (by rw [List.length_cons]; omega)
      | false =>
        -- a further item needs a comma
        by_cases hcomma : c = ','
        · obtain rfl := hcomma
          cases hnext : skipSpace tail with
          | nil =>
            rw [readItems] at h
            simp only [hskip, hnext, Char.reduceEq, if_false, if_true, Bool.false_eq_true] at h
            cases h
          | cons d tail' =>
            by_cases hlast : d = ']'
            · rw [readItems] at h
              simp only [hskip, hnext, hlast, Char.reduceEq, if_false, if_true,
                Bool.false_eq_true] at h
              cases h
            · obtain ⟨blanks', rfl, hblanks', -⟩ := exists_blanks hnext
              rw [readItems_comma_eq hskip hnext hlast] at h
              obtain ⟨hproper, x, rfl, hfirm, htakes⟩ := takes_readOn hvalues hitems h
              refine ⟨hproper, blanks ++ ',' :: (blanks' ++ d :: x), by simp,
                (hfirm.append_left (',' :: blanks')).append_left blanks,
                takes_of_succ (Nat.succ_pos _) fun t m ht hm => ?_⟩
              simp only [List.length_append, List.length_cons] at hm
              rw [List.append_assoc, List.cons_append, List.append_assoc, List.cons_append,
                readItems_comma_eq (hblanks _) (hblanks' (x ++ t)) hlast]
              exact htakes t m ht (by rw [List.length_cons]; omega)
        · rw [readItems, hskip] at h
          simp only [if_neg hclose, Bool.false_eq_true, if_false, if_neg hcomma] at h
          cases h

/-! ### Objects -/

variable {acc : Fields Json} {first : Bool}

/-- The first field is read where the blanks end. -/
theorem readFields_first_eq (hskip : skipSpace cs = '"' :: x) :
    readFields (fuel + 1) depth true acc cs = readField fuel depth acc x := by
  rw [readFields, hskip]
  rfl

/-- A further field is read behind a comma and blanks. -/
theorem readFields_comma_eq (hskip : skipSpace cs = ',' :: x) (hnext : skipSpace x = '"' :: y) :
    readFields (fuel + 1) depth false acc cs = readField fuel depth acc y := by
  rw [readFields]
  simp only [hskip, hnext, Char.reduceEq, if_false, if_true, Bool.false_eq_true]

/-- Where fields read, there is a brace, or else a quote, after a comma unless the field is
the first one. -/
theorem cases_of_readFields (h : readFields (fuel + 1) depth first acc cs = .ok (fields, rest)) :
    skipSpace cs = '\x7d' :: rest ∧ fields = acc ∨
      (∃ x, first = true ∧ skipSpace cs = '"' :: x) ∨
      ∃ x y, first = false ∧ skipSpace cs = ',' :: x ∧ skipSpace x = '"' :: y := by
  rw [readFields] at h
  cases hskip : skipSpace cs with
  | nil =>
    rw [hskip] at h
    cases h
  -- the brace closes, or a name follows, with a comma if it is not the first
  | cons c x =>
    simp only [hskip] at h
    split at h
    · rename_i hclose
      cases h
      exact .inl ⟨by rw [hclose], rfl⟩
    split at h
    · rename_i hfirst
      split at h
      · rename_i hquote
        exact .inr (.inl ⟨x, hfirst, by rw [hquote]⟩)
      · cases h
    rename_i hfirst
    split at h
    · rename_i hcomma
      cases hnext : skipSpace x with
      | nil =>
        rw [hnext] at h
        cases h
      | cons d y =>
        simp only [hnext] at h
        split at h
        · rename_i hquote
          refine .inr (.inr ⟨x, y, Bool.eq_false_iff.mpr hfirst, ?_, ?_⟩)
          · rw [hcomma]
          · rw [hnext, hquote]
        · split at h <;> cases h
    · cases h

/-- Fields are read with one more step of fuel: the next field, and then the others. -/
theorem takesFields_succ (hfield : TakesField fuel) : TakesFields (fuel + 1) := by
  intro depth first acc cs fields rest h hacc
  -- the three cases: the end, the first field, and a further one
  obtain ⟨hskip, rfl⟩ | ⟨tail, rfl, hskip⟩ | ⟨tail, tail', rfl, hskip, hnext⟩ :=
    cases_of_readFields h
  · obtain ⟨blanks, rfl, hblanks, -⟩ := exists_blanks hskip
    refine ⟨hacc, blanks ++ ['\x7d'], by simp, endsFirmly_concat rfl blanks,
      takes_of_succ (Nat.succ_pos _) fun t m ht hm => ?_⟩
    rw [List.append_assoc, readFields]
    simp only [List.singleton_append, hblanks, if_true]
  · obtain ⟨blanks, rfl, hblanks, -⟩ := exists_blanks hskip
    rw [readFields_first_eq hskip] at h
    obtain ⟨hproper, x, rfl, hfirm, htakes⟩ := hfield h hacc
    refine ⟨hproper, blanks ++ '"' :: x, by simp, (hfirm.append_left ['"']).append_left blanks,
      takes_of_succ (Nat.succ_pos _) fun t m ht hm => ?_⟩
    simp only [List.length_append, List.length_cons] at hm
    rw [List.append_assoc, List.cons_append, readFields_first_eq (hblanks (x ++ t))]
    exact htakes t m ht (by omega)
  · obtain ⟨blanks, rfl, hblanks, -⟩ := exists_blanks hskip
    obtain ⟨blanks', rfl, hblanks', -⟩ := exists_blanks hnext
    rw [readFields_comma_eq hskip hnext] at h
    obtain ⟨hproper, x, rfl, hfirm, htakes⟩ := hfield h hacc
    refine ⟨hproper, blanks ++ ',' :: (blanks' ++ '"' :: x), by simp,
      (((hfirm.append_left ['"']).append_left blanks').append_left [',']).append_left blanks,
      takes_of_succ (Nat.succ_pos _) fun t m ht hm => ?_⟩
    simp only [List.length_append, List.length_cons] at hm
    rw [List.append_assoc, List.cons_append, List.append_assoc, List.cons_append,
      readFields_comma_eq (hblanks _) (hblanks' (x ++ t))]
    exact htakes t m ht (by omega)

/-- A field is read with one more step of fuel: its name, its value, and then the other
fields. -/
theorem takesField_succ (hvalues : TakesValues fuel) (hfields : TakesFields fuel) :
    TakesField (fuel + 1) := by
  intro depth acc cs fields rest h hacc
  rw [readField] at h
  obtain ⟨⟨name, tail⟩, hname, h⟩ := bind_eq_ok.mp h
  dsimp only at h
  cases hskip : skipSpace tail with
  | nil =>
    rw [hskip] at h
    cases h
  | cons c tail' =>
    simp only [hskip] at h
    -- a colon stands between the name and the value
    split at h
    · rename_i hcolon
      obtain rfl := hcolon
      obtain ⟨⟨j, tail''⟩, hvalue, hmore⟩ := bind_eq_ok.mp h
      obtain ⟨s, rfl, hstring⟩ := takes_string hname
      obtain ⟨blanks, rfl, hblanks, -⟩ := exists_blanks hskip
      obtain ⟨hj, x, rfl, hfirm, htakes⟩ := hvalues hvalue
      obtain ⟨hproper, y, rfl, hfirm', htakes'⟩ := hfields hmore (hacc.put hj name)
      refine ⟨hproper, s ++ '"' :: (blanks ++ ':' :: (x ++ y)), by simp, ?_,
        takes_of_succ (by rw [List.length_append, List.length_cons]; omega) fun t m ht hm => ?_⟩
      · exact ((((hfirm'.append_left x).append_left [':']).append_left blanks).append_left
          ['"']).append_left s
      · simp only [List.length_append, List.length_cons] at hm
        have hread : readValue m depth (x ++ (y ++ t)) = .ok (j, y ++ t) :=
          htakes (y ++ t) m (ht.append y) (by omega)
        rw [List.append_assoc, List.cons_append, List.append_assoc, List.cons_append,
          List.append_assoc, readField]
        refine bind_eq_ok.mpr ⟨_, hstring _, ?_⟩
        simp only [hblanks, if_true]
        exact bind_eq_ok.mpr ⟨(j, y ++ t), hread, htakes' t m ht (by omega)⟩
    · cases h

/-! ### Whole texts -/

/-- What is read is proper, and is read of its own part of the text. -/
theorem takes_all (fuel : Nat) :
    TakesValues fuel ∧ TakesItems fuel ∧ TakesFields fuel ∧ TakesField fuel := by
  induction fuel with
  | zero =>
    refine ⟨fun h => ?_, fun h => ?_, fun h => ?_, fun h => ?_⟩
    · rw [readValue] at h
      cases h
    · rw [readItems] at h
      cases h
    · rw [readFields] at h
      cases h
    · rw [readField] at h
      cases h
  | succ fuel ih =>
    obtain ⟨hvalues, hitems, hfields, hfield⟩ := ih
    exact ⟨takesValues_succ hitems hfields, takesItems_succ hvalues hitems, takesFields_succ hfield,
      takesField_succ hvalues hfields⟩

/-- The blanks at the ends of a text are trimmed, and nothing else. -/
theorem trimBlanks_eq {blanks blanks' : List Char} (hblanks : ∀ d ∈ blanks, isBlank d = true)
    (hblanks' : ∀ d ∈ blanks', isBlank d = true) (hc : isBlank c = false)
    (hx : EndsFirmly (c :: x)) : trimBlanks (blanks ++ (c :: x ++ blanks')) = c :: x := by
  obtain ⟨d, hlast, hd⟩ := hx
  obtain ⟨y, hy⟩ := List.getLast?_eq_some_iff.mp hlast
  rw [trimBlanks, List.dropWhile_append_of_pos hblanks, List.cons_append,
    List.dropWhile_cons_of_neg (by simp [hc]), ← List.cons_append, List.reverse_append,
    List.dropWhile_append_of_pos (by simpa using hblanks'), hy, List.reverse_append]
  simp [hd]

/-- A text is read as a whole if a value is read and only blanks are left. -/
theorem readWhole_eq_ok (h : readWhole cs = .ok j) : ∃ rest,
    readValue (3 * cs.length + 3) maxNesting cs = .ok (j, rest) ∧ skipSpace rest = [] := by
  obtain ⟨⟨k, rest⟩, hvalue, h⟩ := bind_eq_ok.mp h
  dsimp only at h
  split at h
  · rename_i hskip
    cases h
    exact ⟨rest, hvalue, hskip⟩
  · cases h

/-- A string is read as its characters are. -/
theorem parse_eq_ok {s : String} : parse s = .ok j ↔ readWhole s.toList = .ok j := by
  unfold parse
  dsimp only
  cases readWhole s.toList with
  | error e => simp
  | ok k => simp

/-- What a text reads as is proper. -/
theorem proper_of_parse {s : String} (h : parse s = .ok j) : Proper maxNesting j := by
  obtain ⟨rest, hvalue, -⟩ := readWhole_eq_ok (parse_eq_ok.mp h)
  exact ((takes_all _).1 hvalue).1

/-! ### Kinds of data -/

section Kinds

variable {s : String}

/-- What starts with a minus or a digit reads as a number. -/
theorem isNumber_of_parse (hs : s.toList = c :: cs) (hc : c = '-' ∨ isDigit c = true)
    (h : parse s = .ok j) : j.IsNumber := by
  obtain ⟨rest, hvalue, -⟩ := readWhole_eq_ok (parse_eq_ok.mp h)
  rw [hs] at hvalue
  obtain rfl | hdigit := hc
  · rw [readValue_minus] at hvalue
    obtain ⟨-, -, -, hj, -⟩ := takes_number hvalue
    exact hj
  · rw [readValue_digit hdigit] at hvalue
    obtain ⟨-, -, -, hj, -⟩ := takes_number hvalue
    exact hj

/-- What starts with a bracket reads as a list. -/
theorem exists_list_of_parse (hs : s.toList = '[' :: cs) (h : parse s = .ok j) :
    ∃ items, j = .list items := by
  obtain ⟨rest, hvalue, -⟩ := readWhole_eq_ok (parse_eq_ok.mp h)
  rw [hs, readValue_bracket (by decide)] at hvalue
  obtain ⟨⟨items, tail⟩, -, hj⟩ := bind_eq_ok.mp hvalue
  cases hj
  exact ⟨items, rfl⟩

/-- What starts with a brace reads as an object. -/
theorem exists_object_of_parse (hs : s.toList = '\x7b' :: cs) (h : parse s = .ok j) :
    ∃ fields, j = .object fields := by
  obtain ⟨rest, hvalue, -⟩ := readWhole_eq_ok (parse_eq_ok.mp h)
  rw [hs, readValue_brace (by decide)] at hvalue
  obtain ⟨⟨fields, tail⟩, -, hj⟩ := bind_eq_ok.mp hvalue
  cases hj
  exact ⟨fields, rfl⟩

end Kinds

/-! ### Blanks around a text -/

/-- The text of a datum reads as the same datum without the blanks around it. -/
theorem parse_trimBlanks {s : String} (h : parse s = .ok j) :
    parse (String.ofList (trimBlanks s.toList)) = .ok j := by
  obtain ⟨rest, hvalue, hrest⟩ := readWhole_eq_ok (parse_eq_ok.mp h)
  obtain ⟨-, x, hx, hfirm, htakes⟩ := (takes_all _).1 hvalue
  -- with fuel enough, what was taken off reads by itself, and so it does from its start on
  have hpart : readValue (2 * x.length + 1) maxNesting x = .ok (j, []) := by
    have hread := htakes [] (2 * x.length + 1) (.inl endsNumber_nil) (Nat.le_succ _)
    rwa [List.append_nil] at hread
  obtain ⟨c, y, hskip, hc⟩ := isStart_of_readValue hpart
  obtain ⟨blanks, rfl, -, hfront⟩ := exists_blanks hskip
  have hstart :
      readValue (2 * (blanks ++ c :: y).length + 1) maxNesting (c :: y) = .ok (j, []) := by
    rw [← hpart, ← readValue_skipSpace _ _ (blanks ++ c :: y), hskip]
  obtain ⟨-, z, hz, hfirm', htakes'⟩ := (takes_all _).1 hstart
  rw [List.append_nil] at hz
  obtain rfl := hz
  have hback : ∀ d ∈ rest, isBlank d = true := fun d hd =>
    isBlank_of_isSpace (blanks_of_skipSpace hrest d hd)
  rw [parse_eq_ok, hx, List.append_assoc, trimBlanks_eq hfront hback hc.not_blank hfirm',
    String.toList_ofList]
  have hread : readValue (3 * (c :: y).length + 3) maxNesting (c :: y ++ []) = .ok (j, []) :=
    htakes' [] _ (.inl endsNumber_nil) (by omega)
  rw [List.append_nil] at hread
  rw [readWhole, hread]
  rfl

end Json

end Crossing
