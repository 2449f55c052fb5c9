import Mathlib.Data.List.Forall2
import Crossing.Proofs.Numerals

/-!
# Renderings of data

The text of a datum reads back as the datum, if the texts of its doubles do. A text
that nests too deep does not read.

- `Json.readsBack`: the text of a double reads back as the same double;
- `Json.isDatum`: integers are in range, and fields are in order;
- `Json.ReadsTo`: what the text of a datum reads as, wherever it stands;
- `Json.Reads`, `Json.Overflows`: it reads back, or does not read where it nests too deep;
- `Json.parse_render`, `Json.exists_parse_error`: so it is for whole texts.
-/

namespace Crossing

namespace Json

variable {rest r cs : List Char} {j : Json}

/-! ### Blanks -/

/-- Blanks in front of a text are skipped. -/
theorem skipSpace_append {blanks : List Char} (hblanks : ∀ c ∈ blanks, isSpace c = true)
    (cs : List Char) : skipSpace (blanks ++ cs) = skipSpace cs := by
  induction blanks with
  | nil => rfl
  | cons c blanks ih =>
    have hc := hblanks c List.mem_cons_self
    rw [List.cons_append, skipSpace, List.dropWhile_cons_of_pos hc]
    exact ih fun d hd => hblanks d (List.mem_cons_of_mem _ hd)

/-- Nothing is skipped in front of a character that is no blank. -/
theorem skipSpace_cons {c : Char} (hc : isSpace c = false) (cs : List Char) :
    skipSpace (c :: cs) = c :: cs := List.dropWhile_cons_of_neg (by simp [hc])

/-- The first character that is not skipped is no blank. -/
theorem isSpace_of_skipSpace {c : Char} {cs tail : List Char} (h : skipSpace cs = c :: tail) :
    isSpace c = false := by
  have hhead := List.head?_dropWhile_not isSpace cs
  rw [show cs.dropWhile isSpace = c :: tail from h] at hhead
  simpa using hhead

/-- A text of which nothing is left once blanks are skipped is blank. -/
theorem blanks_of_skipSpace (h : skipSpace cs = []) : ∀ c ∈ cs, isSpace c = true :=
  List.dropWhile_eq_nil_iff.mp h

variable {fuel depth : Nat}

/-- A value reads the same after blanks. -/
theorem readValue_skipSpace (fuel depth : Nat) (cs : List Char) :
    readValue (fuel + 1) depth (skipSpace cs) = readValue (fuel + 1) depth cs := by
  have hskip : skipSpace (skipSpace cs) = skipSpace cs := by
    cases h : skipSpace cs with
    | nil => rfl
    | cons c tail => exact skipSpace_cons (isSpace_of_skipSpace h) tail
  rw [readValue, readValue, hskip]

/-! ### Doubles -/

/-- Whether the text of a double reads back as the same double. -/
def readsBack (x : Float) : Bool :=
  match parse (jsonText x) with
  | .ok (.float y _) => y.toBits == x.toBits
  | _ => false

/-- The bits of a double determine it, so that comparing them is comparing doubles. -/
theorem eq_of_toBits {x y : Float} (h : x.toBits = y.toBits) : x = y := by
  obtain ⟨⟨bits, valid⟩⟩ := x
  obtain ⟨⟨bits', valid'⟩⟩ := y
  have hbits : bits = bits' := h
  subst hbits
  rfl

/-- The text of a double that reads back is read as that double, and not as an integer. -/
theorem parse_jsonText {x : Float} (hx : readsBack x = true) :
    ∃ finite, parse (jsonText x) = .ok (.float x finite) := by
  unfold readsBack at hx
  split at hx
  · rename_i y finite hparse
    obtain rfl := eq_of_toBits (beq_iff_eq.mp hx)
    exact ⟨finite, hparse⟩
  · cases hx

/-- A part of a text reads as a datum, and blanks may be left before what follows. -/
def ReadsAs (fuel depth : Nat) (cs : List Char) (j : Json) (rest : List Char) : Prop :=
  ∃ blanks, (∀ c ∈ blanks, isSpace c = true) ∧
    readValue fuel depth cs = .ok (j, blanks ++ rest)

/-- Reading is up to blanks in front, of which there may be none. -/
theorem readsAs_of_eq (h : readValue fuel depth cs = .ok (j, rest)) :
    ReadsAs fuel depth cs j rest := ⟨[], fun _ hc => absurd hc List.not_mem_nil, h⟩

/-- What the text of a double reads as, it reads as wherever it stands. -/
theorem readsAs_jsonText {x : Float} (hparse : parse (jsonText x) = .ok j)
    (hrest : EndsNumber rest) :
    ReadsAs (fuel + 1) depth ((jsonText x).toList ++ rest) j rest := by
  obtain ⟨blanks, hread, hblanks⟩ : ∃ blanks,
      readValue (3 * (jsonText x).toList.length + 3) maxNesting (jsonText x).toList =
        .ok (j, blanks) ∧ skipSpace blanks = [] := by
    unfold parse at hparse
    cases hwhole : readWhole (jsonText x).toList with
    | error e => simp [hwhole] at hparse
    | ok k =>
      simp only [hwhole] at hparse
      cases hparse
      unfold readWhole at hwhole
      cases hvalue : readValue (3 * (jsonText x).toList.length + 3) maxNesting
          (jsonText x).toList with
      | error e => simp [hvalue, Bind.bind, Except.bind] at hwhole
      | ok part =>
        obtain ⟨k, blanks⟩ := part
        simp only [hvalue, Bind.bind, Except.bind] at hwhole
        split at hwhole
        · rename_i hskip
          cases hwhole
          exact ⟨blanks, rfl, hskip⟩
        · cases hwhole
  refine ⟨blanks, blanks_of_skipSpace hblanks, ?_⟩
  -- the text starts like a number, so that it is read as one
  obtain ⟨c, cs, hcs, rfl | hdigit⟩ := head_jsonText x
  · rw [hcs, readValue_minus] at hread
    rw [hcs, List.cons_append, readValue_minus]
    exact readNumber_append hrest hread
  · rw [hcs, readValue_digit hdigit] at hread
    rw [hcs, List.cons_append, readValue_digit hdigit, ← List.cons_append]
    exact readNumber_append hrest hread

/-- The text of an integer reads back wherever it stands. -/
theorem readsAs_intText {i : Int}
    (hi : -9223372036854775808 ≤ i ∧ i ≤ 18446744073709551615) (hrest : EndsNumber rest) :
    ReadsAs (fuel + 1) depth ((intText i).toList ++ rest) (.int i) rest := by
  refine readsAs_of_eq ?_
  obtain ⟨cs, htext, hnumber⟩ | ⟨c, cs, htext, hdigit, hnumber⟩ := readNumber_intText hi.1 hi.2
  · rw [htext, List.cons_append, readValue_minus]
    exact readNumber_append hrest hnumber
  · rw [htext, List.cons_append, readValue_digit hdigit, ← List.cons_append]
    exact readNumber_append hrest hnumber

/-! ### Data -/

mutual

/-- Whether all integers of a datum are signed or unsigned integers of 64 bits, and all
objects have each name once and in order. -/
def isDatum : Json → Bool
  | .int i => decide (-9223372036854775808 ≤ i ∧ i ≤ 18446744073709551615)
  | .list items => isDatumIn items
  | .object fields => decide ((fields.map Prod.fst).Pairwise (· < ·)) && isDatumOf fields
  | _ => true

/-- The items of a list can be the reading of a text. -/
def isDatumIn : List Json → Bool
  | [] => true
  | j :: js => isDatum j && isDatumIn js

/-- The fields of an object can be the reading of a text. -/
def isDatumOf : List (String × Json) → Bool
  | [] => true
  | (_, j) :: fields => isDatum j && isDatumOf fields

end

mutual

/-- How deep lists and objects nest. -/
def nesting : Json → Nat
  | .list items => nestingIn items + 1
  | .object fields => nestingOf fields + 1
  | _ => 0

/-- The depth of the deepest item. -/
def nestingIn : List Json → Nat
  | [] => 0
  | j :: js => max (nesting j) (nestingIn js)

/-- The depth of the deepest field. -/
def nestingOf : List (String × Json) → Nat
  | [] => 0
  | (_, j) :: fields => max (nesting j) (nestingOf fields)

end

mutual

/-- The doubles in a datum. An integer that is no fixnum becomes a double. -/
def doubles : Json → List Float
  | .int i => if Fixnum.ofInt? i = none then [Float.ofInt i] else []
  | .float x _ => [x]
  | .list items => doublesIn items
  | .object fields => doublesOf fields
  | _ => []

/-- The doubles of the items, in order. -/
def doublesIn : List Json → List Float
  | [] => []
  | j :: js => doubles j ++ doublesIn js

/-- The doubles of the fields, in order. -/
def doublesOf : List (String × Json) → List Float
  | [] => []
  | (_, j) :: fields => doubles j ++ doublesOf fields

end

/-! ### Texts of lists and objects -/

/-- Texts after commas, and what closes them. -/
def tailText (close : Char) : List String → List Char
  | [] => [close]
  | s :: ss => ',' :: (s.toList ++ tailText close ss)

/-- Texts with commas between them, and what closes them. -/
def bodyText (close : Char) : List String → List Char
  | [] => [close]
  | s :: ss => s.toList ++ tailText close ss

/-- A text that joins parts by commas, up to the closing character, is what the reader of
items or fields has in front of it. -/
theorem toList_intercalate_append (close : Char) (ss : List String) :
    (",".intercalate ss).toList ++ [close] = bodyText close ss := by
  have htail : ∀ ss : List String, ss ≠ [] →
      ',' :: ([','].intercalate (ss.map String.toList) ++ [close]) = tailText close ss := by
    intro ss hss
    -- the induction is on the parts, with the closing character at the end of all
    induction ss with
    | nil => exact absurd rfl hss
    | cons s ss ih =>
      cases ss with
      | nil => simp [tailText]
      | cons t ss =>
        have := ih (by simp)
        rw [tailText, ← this]
        simp [List.intercalate_cons_cons]
  rw [String.toList_intercalate]
  cases ss with
  | nil => rfl
  | cons s ss =>
    have := htail (s :: ss) (by simp)
    rw [tailText] at this
    exact (List.cons.inj this).2

/-- What follows the opening bracket of a list. -/
theorem toList_render_list (items : List Json) :
    (render (.list items)).toList = '[' :: bodyText ']' (renderItems items) := by
  rw [render, ← toList_intercalate_append]
  simp

/-- What follows the opening brace of an object. -/
theorem toList_render_object (fields : List (String × Json)) :
    (render (.object fields)).toList = '\x7b' :: bodyText '\x7d' (renderFields fields) := by
  rw [render, ← toList_intercalate_append]
  simp

/-! ### Reading lists -/

/-- What reads as a value does not start with what closes a list. -/
theorem exists_skipSpace_of_readValue {part : Part Json}
    (h : readValue (fuel + 1) depth cs = .ok part) :
    ∃ c tail, skipSpace cs = c :: tail ∧ c ≠ ']' := by
  rw [readValue] at h
  cases hskip : skipSpace cs with
  | nil =>
    rw [hskip] at h
    cases h
  | cons c tail =>
    refine ⟨c, tail, rfl, ?_⟩
    rintro rfl
    simp only [hskip] at h
    cases h

/-- Puts a datum in front of the items that are read after it. -/
def readMore (j : Json) : Except Stuck (Part (List Json)) → Except Stuck (Part (List Json))
  | .ok (items, rest) => .ok (j :: items, rest)
  | .error e => .error e

/-- Blanks in front of items do not matter. -/
theorem readItems_skipSpace {blanks : List Char} (hblanks : ∀ c ∈ blanks, isSpace c = true)
    (fuel depth : Nat) (first : Bool) (cs : List Char) :
    readItems (fuel + 1) depth first (blanks ++ cs) = readItems (fuel + 1) depth first cs := by
  rw [readItems, readItems, skipSpace_append hblanks]

/-- The first item follows the bracket with nothing between. -/
theorem readItems_first (h : ReadsAs (fuel + 2) depth cs j rest) :
    readItems (fuel + 3) depth true cs = readMore j (readItems (fuel + 2) depth false rest) := by
  obtain ⟨blanks, hblanks, hread⟩ := h
  obtain ⟨c, tail, hskip, hc⟩ := exists_skipSpace_of_readValue hread
  rw [← readValue_skipSpace, hskip] at hread
  rw [readItems, hskip]
  simp only [if_neg hc, if_true, hread, Bind.bind, Except.bind,
    readItems_skipSpace hblanks (fuel + 1)]
  cases readItems (fuel + 2) depth false rest <;> rfl

/-- Each further item follows a comma. -/
theorem readItems_comma (h : ReadsAs (fuel + 2) depth cs j rest) :
    readItems (fuel + 3) depth false (',' :: cs) =
      readMore j (readItems (fuel + 2) depth false rest) := by
  obtain ⟨blanks, hblanks, hread⟩ := h
  obtain ⟨c, tail, hskip, hc⟩ := exists_skipSpace_of_readValue hread
  rw [← readValue_skipSpace, hskip] at hread
  rw [readItems, skipSpace_cons (by decide)]
  simp only [show (',' : Char) ≠ ']' by decide, if_false, Bool.false_eq_true, if_true, hskip,
    if_neg hc, hread, Bind.bind, Except.bind, readItems_skipSpace hblanks (fuel + 1)]
  cases readItems (fuel + 2) depth false rest <;> rfl

/-! ### Reading objects -/

/-- A field with what follows: its quoted name, a colon, and its value. -/
theorem toList_field (name : String) (j : Json) (cs : List Char) :
    (stringText name ++ ":" ++ render j).toList ++ cs =
      '"' :: (name.toList.flatMap escapeChar ++ '"' :: ':' :: ((render j).toList ++ cs)) := by
  simp [toList_stringText]

/-- Blanks in front of fields do not matter. -/
theorem readFields_skipSpace {blanks : List Char} (hblanks : ∀ c ∈ blanks, isSpace c = true)
    (fuel depth : Nat) (first : Bool) (fields : Fields Json) (cs : List Char) :
    readFields (fuel + 1) depth first fields (blanks ++ cs) =
      readFields (fuel + 1) depth first fields cs := by
  rw [readFields, readFields, skipSpace_append hblanks]

/-- The rest of a field, after the quote in front of its name. -/
theorem readField_eq {fields : Fields Json} (name : String)
    (h : ReadsAs (fuel + 1) depth cs j rest) :
    readField (fuel + 2) depth fields (name.toList.flatMap escapeChar ++ '"' :: ':' :: cs) =
      readFields (fuel + 1) depth false (fields.put name j) rest := by
  obtain ⟨blanks, hblanks, hread⟩ := h
  rw [readField, readString_escaped]
  simp only [Bind.bind, Except.bind, skipSpace_cons (show isSpace ':' = false by decide), if_true,
    hread, readFields_skipSpace hblanks]

/-- The first field follows the brace with nothing between, and goes into the fields read so
far. -/
theorem readFields_first {fields : Fields Json} {k : Json} (name : String)
    (h : ReadsAs (fuel + 1) depth ((render j).toList ++ cs) k rest) :
    readFields (fuel + 3) depth true fields ((stringText name ++ ":" ++ render j).toList ++ cs) =
      readFields (fuel + 1) depth false (fields.put name k) rest := by
  rw [toList_field, readFields, skipSpace_cons (by decide)]
  simp only [show ('"' : Char) ≠ '\x7d' by decide, if_false, if_true]
  exact readField_eq name h

/-- Each further field follows a comma, and goes into the fields read so far. -/
theorem readFields_comma {fields : Fields Json} {k : Json} (name : String)
    (h : ReadsAs (fuel + 1) depth ((render j).toList ++ cs) k rest) :
    readFields (fuel + 3) depth false fields
        (',' :: ((stringText name ++ ":" ++ render j).toList ++ cs)) =
      readFields (fuel + 1) depth false (fields.put name k) rest := by
  rw [toList_field, readFields, skipSpace_cons (by decide)]
  simp only [show (',' : Char) ≠ '\x7d' by decide, if_false, Bool.false_eq_true, if_true,
    skipSpace_cons (show isSpace '"' = false by decide)]
  exact readField_eq name h

/-- A name after all others is put last. -/
theorem put_of_forall_lt {fields : Fields Json} {name : String}
    (h : ∀ p ∈ fields, p.1 < name) : fields.put name j = fields ++ [(name, j)] := by
  induction fields with
  | nil => rfl
  | cons p fields ih =>
    obtain ⟨k, v⟩ := p
    have hlt : k < name := h (k, v) List.mem_cons_self
    have hne : name ≠ k := by
      rintro rfl
      exact String.lt_irrefl _ hlt
    rw [Fields.put, if_neg hne, if_neg (String.lt_asymm hlt),
      ih fun q hq => h q (List.mem_cons_of_mem _ hq)]
    rfl

/-! ### Texts read back -/

/-- A bracket starts a list, one level deeper. -/
theorem readValue_bracket (hdepth : 1 < depth) :
    readValue (fuel + 1) depth ('[' :: cs) =
      (readItems fuel (depth - 1) true cs >>= fun part => pure (.list part.1, part.2)) := by
  rw [readValue, skipSpace_cons (by decide)]
  change (if depth ≤ 1 then _ else _) = _
  rw [if_neg (Nat.not_le.mpr hdepth)]

/-- A brace starts an object, one level deeper. -/
theorem readValue_brace (hdepth : 1 < depth) :
    readValue (fuel + 1) depth ('\x7b' :: cs) =
      (readFields fuel (depth - 1) true [] cs >>= fun part => pure (.object part.1, part.2)) := by
  rw [readValue, skipSpace_cons (by decide)]
  change (if depth ≤ 1 then _ else _) = _
  rw [if_neg (Nat.not_le.mpr hdepth)]

/-- A field is longer than its value by a quoted name and a colon at least. The fuel for the
value comes from there. -/
theorem length_render_lt_field (name : String) (j : Json) :
    (render j).toList.length + 3 ≤ (stringText name ++ ":" ++ render j).toList.length := by
  have hlength := congrArg List.length (toList_field name j [])
  simp only [List.append_nil, List.length_cons, List.length_append] at hlength
  omega

/-- What follows an item or a field cannot belong to a number. -/
theorem endsNumber_tailText {close : Char} (hclose : close = ']' ∨ close = '\x7d')
    (ss : List String) (rest : List Char) : EndsNumber (tailText close ss ++ rest) := by
  cases ss with
  | nil => obtain rfl | rfl := hclose <;> exact endsNumber_cons (by decide) rest
  | cons s ss => exact endsNumber_cons (by decide) _

/-- The closing character at least is left, which is what an induction on fuel needs. -/
theorem tailText_length_pos (close : Char) (ss : List String) :
    0 < (tailText close ss).length := by
  cases ss <;> simp [tailText]

/-- The text of a datum `j` reads as a datum `k` wherever it stands, unless it nests too
deep. -/
def ReadsTo (j k : Json) : Prop :=
  ∀ {fuel depth : Nat} {rest : List Char}, j.nesting < depth → EndsNumber rest →
    2 * (render j).toList.length ≤ fuel →
    ReadsAs fuel depth ((render j).toList ++ rest) k rest

/-- The text of a datum reads back. -/
def Reads (j : Json) : Prop := ReadsTo j j

/-- The text of `null` reads back. -/
theorem reads_null : Reads .null := by
  intro fuel depth rest _ _ hfuel
  obtain ⟨fuel, rfl⟩ : ∃ n, fuel = n + 1 := ⟨fuel - 1, by simp [render] at hfuel; omega⟩
  refine readsAs_of_eq ?_
  rw [readValue]
  rfl

/-- The text of a truth value reads back. -/
theorem reads_bool (b : Bool) : Reads (.bool b) := by
  intro fuel depth rest _ _ hfuel
  obtain ⟨fuel, rfl⟩ : ∃ n, fuel = n + 1 :=
    ⟨fuel - 1, by cases b <;> simp [render] at hfuel <;> omega⟩
  refine readsAs_of_eq ?_
  rw [readValue]
  cases b <;> rfl

/-- The text of an integer reads back if it fits into 64 bits, with a sign or without. -/
theorem reads_int {i : Int} (hi : -9223372036854775808 ≤ i ∧ i ≤ 18446744073709551615) :
    Reads (.int i) := by
  intro fuel depth rest _ hrest hfuel
  have hpos : 0 < (intText i).toList.length := by
    obtain ⟨cs, htext, -⟩ | ⟨c, cs, htext, -⟩ := readNumber_intText hi.1 hi.2 <;> simp [htext]
  rw [render] at hfuel ⊢
  obtain ⟨fuel, rfl⟩ : ∃ n, fuel = n + 1 := ⟨fuel - 1, by omega⟩
  exact readsAs_intText hi hrest

/-- The text of a double reads as what it reads as by itself. -/
theorem readsTo_float {x : Float} {finite : x.isFinite = true}
    (hparse : parse (jsonText x) = .ok j) : ReadsTo (.float x finite) j := by
  intro fuel depth rest _ hrest hfuel
  obtain ⟨c, cs, hcs, -⟩ := head_jsonText x
  have hpos : 0 < (jsonText x).toList.length := by simp [hcs]
  rw [render] at hfuel ⊢
  obtain ⟨fuel, rfl⟩ : ∃ n, fuel = n + 1 := ⟨fuel - 1, by omega⟩
  exact readsAs_jsonText hparse hrest

/-- The text of a double reads back if the shortest decimal does. -/
theorem reads_float {x : Float} {finite : x.isFinite = true} (hx : readsBack x = true) :
    Reads (.float x finite) := by
  obtain ⟨_, hparse⟩ := parse_jsonText hx
  exact readsTo_float hparse

/-- The text of a string reads back, whatever has to be escaped. -/
theorem reads_text (s : String) : Reads (.text s) := by
  intro fuel depth rest _ _ hfuel
  obtain ⟨fuel, rfl⟩ : ∃ n, fuel = n + 1 :=
    ⟨fuel - 1, by simp [render, toList_stringText] at hfuel; omega⟩
  refine readsAs_of_eq ?_
  rw [render, toList_stringText, List.cons_append, List.append_assoc]
  exact readValue_quote s rest

/-- Items after a comma read as what each of them does. -/
theorem readItems_tailText {items ks : List Json} (hitems : List.Forall₂ ReadsTo items ks)
    (hnest : nestingIn items < depth)
    (hfuel : 2 * (tailText ']' (renderItems items)).length ≤ fuel) :
    readItems fuel depth false (tailText ']' (renderItems items) ++ rest) = .ok (ks, rest) := by
  -- the induction is on the items, with fuel for the text that is left
  induction hitems generalizing fuel with
  | nil =>
    obtain ⟨fuel, rfl⟩ : ∃ n, fuel = n + 1 :=
      ⟨fuel - 1, by simp [renderItems, tailText] at hfuel; omega⟩
    rw [readItems]
    rfl
  | @cons j k js ks hj _ ih =>
    rw [nestingIn] at hnest
    simp only [renderItems, tailText, List.length_cons, List.length_append] at hfuel ⊢
    have hpos := tailText_length_pos ']' (renderItems js)
    obtain ⟨fuel, rfl⟩ : ∃ n, fuel = n + 3 := ⟨fuel - 3, by omega⟩
    have hvalue : ReadsAs (fuel + 2) depth _ k (tailText ']' (renderItems js) ++ rest) :=
      hj (by omega) (endsNumber_tailText (.inl rfl) _ rest) (by omega)
    have hrest : readItems (fuel + 2) depth false (tailText ']' (renderItems js) ++ rest) =
        .ok (ks, rest) := ih (by omega) (by omega)
    rw [List.cons_append, List.append_assoc, readItems_comma hvalue, hrest]
    rfl

/-- A list whose items are read is read, item by item. The induction is on the items, with
the text that is left as what varies. -/
theorem readsTo_list {items ks : List Json} (hitems : List.Forall₂ ReadsTo items ks) :
    ReadsTo (.list items) (.list ks) := by
  intro fuel depth rest hnest _ hfuel
  rw [nesting] at hnest
  rw [toList_render_list] at hfuel ⊢
  obtain ⟨fuel, rfl⟩ : ∃ n, fuel = n + 1 := ⟨fuel - 1, by simp at hfuel; omega⟩
  have hbody : readItems fuel (depth - 1) true (bodyText ']' (renderItems items) ++ rest) =
      .ok (ks, rest) := by
    -- the first item comes behind the bracket, and the others behind commas
    cases hitems with
    | nil =>
      obtain ⟨fuel, rfl⟩ : ∃ n, fuel = n + 1 :=
        ⟨fuel - 1, by simp [renderItems, bodyText] at hfuel; omega⟩
      rw [readItems]
      rfl
    | @cons j k js ks hj hjs =>
      rw [nestingIn] at hnest
      simp only [renderItems, bodyText, List.length_cons, List.length_append] at hfuel ⊢
      have hpos := tailText_length_pos ']' (renderItems js)
      obtain ⟨fuel, rfl⟩ : ∃ n, fuel = n + 3 := ⟨fuel - 3, by omega⟩
      have hvalue : ReadsAs (fuel + 2) (depth - 1) _ k (tailText ']' (renderItems js) ++ rest) :=
        hj (by omega) (endsNumber_tailText (.inl rfl) _ rest) (by omega)
      have hrest : readItems (fuel + 2) (depth - 1) false
          (tailText ']' (renderItems js) ++ rest) = .ok (ks, rest) :=
        readItems_tailText hjs (by omega) (by omega)
      rw [List.append_assoc, readItems_first hvalue, hrest]
      rfl
  refine readsAs_of_eq ?_
  rw [List.cons_append, readValue_bracket (by omega), hbody]
  rfl

/-- A field reads as one of the same name, whose value is what its value reads as. -/
def FieldReadsTo (p q : String × Json) : Prop := p.1 = q.1 ∧ ReadsTo p.2 q.2

/-- Fields after a comma read as what the value of each does, if the names are in order. -/
theorem readFields_tailText {fields ks : List (String × Json)} {acc : Fields Json}
    (hfields : List.Forall₂ FieldReadsTo fields ks)
    (hnames : (fields.map Prod.fst).Pairwise (· < ·))
    (hacc : ∀ p ∈ acc, ∀ q ∈ fields, p.1 < q.1) (hnest : nestingOf fields < depth)
    (hfuel : 2 * (tailText '\x7d' (renderFields fields)).length ≤ fuel) :
    readFields fuel depth false acc (tailText '\x7d' (renderFields fields) ++ rest) =
      .ok (acc ++ ks, rest) := by
  induction hfields generalizing fuel acc with
  | nil =>
    obtain ⟨fuel, rfl⟩ : ∃ n, fuel = n + 1 :=
      ⟨fuel - 1, by simp [renderFields, tailText] at hfuel; omega⟩
    rw [List.append_nil, readFields]
    rfl
  | @cons p q fields ks hp hfields ih =>
    obtain ⟨name, j⟩ := p
    obtain ⟨_, k⟩ := q
    obtain ⟨rfl, hj⟩ := hp
    dsimp only at hj
    rw [nestingOf] at hnest
    rw [List.map_cons, List.pairwise_cons] at hnames
    simp only [renderFields, tailText, List.length_cons, List.length_append] at hfuel ⊢
    have hpos := tailText_length_pos '\x7d' (renderFields fields)
    have hlength := length_render_lt_field name j
    obtain ⟨fuel, rfl⟩ : ∃ n, fuel = n + 3 := ⟨fuel - 3, by omega⟩
    have hvalue : ReadsAs (fuel + 1) depth _ k (tailText '\x7d' (renderFields fields) ++ rest) :=
      hj (by omega) (endsNumber_tailText (.inr rfl) _ rest) (by omega)
    -- the name comes after all that have been read, so the field is put last
    have hput : acc.put name k = acc ++ [(name, k)] :=
      put_of_forall_lt fun p hp => hacc p hp (name, j) List.mem_cons_self
    have hlast : ∀ p ∈ acc ++ [(name, k)], ∀ q ∈ fields, p.1 < q.1 := by
      intro p hp q hq
      rcases List.mem_append.mp hp with hp | hp
      · exact hacc p hp q (List.mem_cons_of_mem _ hq)
      · obtain rfl := List.mem_singleton.mp hp
        exact hnames.1 q.1 (List.mem_map_of_mem hq)
    have hrest : readFields (fuel + 1) depth false (acc ++ [(name, k)])
        (tailText '\x7d' (renderFields fields) ++ rest) =
          .ok (acc ++ [(name, k)] ++ ks, rest) :=
      ih hnames.2 hlast (by omega) (by omega)
    rw [List.cons_append, List.append_assoc, readFields_comma name hvalue, hput, hrest,
      List.append_assoc]
    rfl

/-- An object whose fields are read is read, field by field. The names must ascend, so that
each field goes behind those read before it. -/
theorem readsTo_object {fields ks : List (String × Json)}
    (hfields : List.Forall₂ FieldReadsTo fields ks)
    (hnames : (fields.map Prod.fst).Pairwise (· < ·)) :
    ReadsTo (.object fields) (.object ks) := by
  intro fuel depth rest hnest _ hfuel
  rw [nesting] at hnest
  rw [toList_render_object] at hfuel ⊢
  obtain ⟨fuel, rfl⟩ : ∃ n, fuel = n + 1 := ⟨fuel - 1, by simp at hfuel; omega⟩
  have hbody : readFields fuel (depth - 1) true []
      (bodyText '\x7d' (renderFields fields) ++ rest) = .ok (ks, rest) := by
    -- the first field comes behind the brace, and the others behind commas
    cases hfields with
    | nil =>
      obtain ⟨fuel, rfl⟩ : ∃ n, fuel = n + 1 :=
        ⟨fuel - 1, by simp [renderFields, bodyText] at hfuel; omega⟩
      rw [readFields]
      rfl
    | @cons p q fields ks hp hfields =>
      obtain ⟨name, j⟩ := p
      obtain ⟨_, k⟩ := q
      obtain ⟨rfl, hj⟩ := hp
      dsimp only at hj
      rw [nestingOf] at hnest
      rw [List.map_cons, List.pairwise_cons] at hnames
      simp only [renderFields, bodyText, List.length_cons, List.length_append] at hfuel ⊢
      have hpos := tailText_length_pos '\x7d' (renderFields fields)
      have hlength := length_render_lt_field name j
      obtain ⟨fuel, rfl⟩ : ∃ n, fuel = n + 3 := ⟨fuel - 3, by omega⟩
      have hvalue : ReadsAs (fuel + 1) (depth - 1) _ k
          (tailText '\x7d' (renderFields fields) ++ rest) :=
        hj (by omega) (endsNumber_tailText (.inr rfl) _ rest) (by omega)
      -- the names ascend, so that each field goes behind those that were read
      have hlast : ∀ p ∈ [(name, k)], ∀ q ∈ fields, p.1 < q.1 := by
        intro p hp q hq
        obtain rfl := List.mem_singleton.mp hp
        exact hnames.1 q.1 (List.mem_map_of_mem hq)
      rw [List.append_assoc, readFields_first name hvalue]
      show readFields (fuel + 1) (depth - 1) false [(name, k)] _ =
        .ok ([(name, k)] ++ ks, rest)
      exact readFields_tailText hfields hnames.2 hlast (by omega) (by omega)
  refine readsAs_of_eq ?_
  rw [List.cons_append, readValue_brace (by omega), hbody]
  rfl

/-- A list reads back if its items do. -/
theorem reads_list {items : List Json} (hitems : ∀ j ∈ items, Reads j) : Reads (.list items) :=
  readsTo_list (List.forall₂_same.mpr hitems)

/-- An object reads back if the values of its fields do. -/
theorem reads_object {fields : List (String × Json)} (hfields : ∀ p ∈ fields, Reads p.2)
    (hnames : (fields.map Prod.fst).Pairwise (· < ·)) : Reads (.object fields) :=
  readsTo_object (List.forall₂_same.mpr fun p hp => ⟨rfl, hfields p hp⟩) hnames

mutual

/-- The text of a datum whose doubles read back reads back. -/
theorem reads_of_isDatum : ∀ j : Json, j.isDatum = true →
    (∀ x ∈ j.doubles, readsBack x = true) → Reads j
  | .null, _, _ => reads_null
  | .bool b, _, _ => reads_bool b
  | .int _, hdatum, _ => reads_int (of_decide_eq_true hdatum)
  | .float x _, _, hdoubles => reads_float (hdoubles x List.mem_cons_self)
  | .text s, _, _ => reads_text s
  | .list items, hdatum, hdoubles => reads_list (reads_of_isDatumIn items hdatum hdoubles)
  | .object fields, hdatum, hdoubles => by
    obtain ⟨hnames, hdatum⟩ := (Bool.and_eq_true _ _).mp hdatum
    exact reads_object (reads_of_isDatumOf fields hdatum hdoubles) (of_decide_eq_true hnames)

theorem reads_of_isDatumIn : ∀ items : List Json, isDatumIn items = true →
    (∀ x ∈ doublesIn items, readsBack x = true) → ∀ j ∈ items, Reads j
  | [], _, _ => nofun
  | j :: js, hdatum, hdoubles => by
    obtain ⟨hj, hjs⟩ := (Bool.and_eq_true _ _).mp hdatum
    refine List.forall_mem_cons.mpr ⟨reads_of_isDatum j hj fun x hx => ?_,
      reads_of_isDatumIn js hjs fun x hx => ?_⟩
    · exact hdoubles x (List.mem_append_left _ hx)
    · exact hdoubles x (List.mem_append_right _ hx)

theorem reads_of_isDatumOf : ∀ fields : List (String × Json), isDatumOf fields = true →
    (∀ x ∈ doublesOf fields, readsBack x = true) → ∀ p ∈ fields, Reads p.2
  | [], _, _ => nofun
  | (_, j) :: fields, hdatum, hdoubles => by
    obtain ⟨hj, hfields⟩ := (Bool.and_eq_true _ _).mp hdatum
    refine List.forall_mem_cons.mpr ⟨reads_of_isDatum j hj fun x hx => ?_,
      reads_of_isDatumOf fields hfields fun x hx => ?_⟩
    · exact hdoubles x (List.mem_append_left _ hx)
    · exact hdoubles x (List.mem_append_right _ hx)

end

/-! ### Texts that nest too deep -/

/-- The text of a datum does not read where it nests too deep. -/
def Overflows (j : Json) : Prop :=
  ∀ {fuel depth : Nat} {rest : List Char}, 1 ≤ depth → depth ≤ j.nesting →
    2 * (render j).toList.length ≤ fuel →
    ∃ e, readValue fuel depth ((render j).toList ++ rest) = .error e

/-- What nests starts with an opening bracket or brace. -/
theorem exists_render_of_nesting (hj : 0 < j.nesting) :
    ∃ c cs, (render j).toList = c :: cs ∧ isSpace c = false ∧ c ≠ ']' := by
  cases j with
  | list items => exact ⟨'[', _, toList_render_list items, by decide, by decide⟩
  | object fields => exact ⟨'\x7b', _, toList_render_object fields, by decide, by decide⟩
  | _ => exact absurd hj (Nat.lt_irrefl 0)

/-- A failure to read an item is a failure to read the list. -/
theorem readItems_comma_error {e : Stuck} (h : readValue (fuel + 1) depth cs = .error e) :
    ∃ e, readItems (fuel + 2) depth false (',' :: cs) = .error e := by
  rw [readItems, skipSpace_cons (by decide)]
  simp only [show (',' : Char) ≠ ']' by decide, if_false, Bool.false_eq_true, if_true]
  rw [← readValue_skipSpace] at h
  cases hskip : skipSpace cs with
  | nil => exact ⟨_, rfl⟩
  | cons c tail =>
    rw [hskip] at h
    simp only [h, Bind.bind, Except.bind]
    split <;> exact ⟨_, rfl⟩

/-- A list with an item that is nested too deeply for what is left is not read. Items before
it are read, and the first one that is too deep fails. -/
theorem readItems_overflow {items : List Json} (hitems : ∀ j ∈ items, Reads j)
    (hover : ∀ j ∈ items, Overflows j) (hdepth : 1 ≤ depth) (hnest : depth ≤ nestingIn items)
    (hfuel : 2 * (tailText ']' (renderItems items)).length ≤ fuel) :
    ∃ e, readItems fuel depth false (tailText ']' (renderItems items) ++ rest) = .error e := by
  -- the induction is on the items; the first one that is too deep ends the reading
  induction items generalizing fuel with
  | nil => exact absurd hnest (Nat.not_le.mpr hdepth)
  | cons j js ih =>
    rw [nestingIn] at hnest
    simp only [renderItems, tailText, List.length_cons, List.length_append] at hfuel ⊢
    have hpos := tailText_length_pos ']' (renderItems js)
    obtain ⟨fuel, rfl⟩ : ∃ n, fuel = n + 3 := ⟨fuel - 3, by omega⟩
    rw [List.cons_append, List.append_assoc]
    -- the item is too deep, or is read and the depth is that of another
    by_cases hj : depth ≤ j.nesting
    · obtain ⟨e, he⟩ : ∃ e, readValue (fuel + 2) depth
          ((render j).toList ++ (tailText ']' (renderItems js) ++ rest)) = .error e :=
        hover j List.mem_cons_self hdepth hj (by omega)
      exact readItems_comma_error he
    · have hvalue : ReadsAs (fuel + 2) depth _ j (tailText ']' (renderItems js) ++ rest) :=
        hitems j List.mem_cons_self (by omega) (endsNumber_tailText (.inl rfl) _ rest) (by omega)
      obtain ⟨e, he⟩ : ∃ e, readItems (fuel + 2) depth false
          (tailText ']' (renderItems js) ++ rest) = .error e :=
        ih (fun k hk => hitems k (List.mem_cons_of_mem _ hk))
          (fun k hk => hover k (List.mem_cons_of_mem _ hk)) (by omega) (by omega)
      exact ⟨e, by rw [readItems_comma hvalue, he, readMore]⟩

/-- A list that is nested too deeply is not read, if neither are its items. -/
theorem overflows_list {items : List Json} (hitems : ∀ j ∈ items, Reads j)
    (hover : ∀ j ∈ items, Overflows j) : Overflows (.list items) := by
  intro fuel depth rest hdepth hnest hfuel
  rw [nesting] at hnest
  rw [toList_render_list] at hfuel ⊢
  obtain ⟨fuel, rfl⟩ : ∃ n, fuel = n + 1 := ⟨fuel - 1, by simp at hfuel; omega⟩
  rw [List.cons_append]
  -- nothing can be inside at the last level
  by_cases hone : depth ≤ 1
  · rw [readValue, skipSpace_cons (by decide)]
    exact ⟨_, if_pos hone⟩
  suffices ∃ e, readItems fuel (depth - 1) true (bodyText ']' (renderItems items) ++ rest) =
      .error e by
    obtain ⟨e, he⟩ := this
    exact ⟨e, by rw [readValue_bracket (Nat.lt_of_not_le hone), he]; rfl⟩
  cases items with
  | nil =>
    rw [nestingIn] at hnest
    omega
  | cons j js =>
    rw [nestingIn] at hnest
    simp only [renderItems, bodyText, List.length_cons, List.length_append] at hfuel ⊢
    have hpos := tailText_length_pos ']' (renderItems js)
    rw [List.append_assoc]
    -- the first item is too deep, or is read and the depth is that of another
    by_cases hj : depth - 1 ≤ j.nesting
    · obtain ⟨c, cs, htext, hspace, hc⟩ := exists_render_of_nesting (j := j) (by omega)
      obtain ⟨fuel, rfl⟩ : ∃ n, fuel = n + 1 := ⟨fuel - 1, by omega⟩
      obtain ⟨e, he⟩ : ∃ e, readValue fuel (depth - 1)
          ((render j).toList ++ (tailText ']' (renderItems js) ++ rest)) = .error e :=
        hover j List.mem_cons_self (by omega) hj (by omega)
      rw [htext, List.cons_append] at he ⊢
      rw [readItems, skipSpace_cons hspace]
      simp only [if_neg hc, if_true, he]
      exact ⟨e, rfl⟩
    · obtain ⟨fuel, rfl⟩ : ∃ n, fuel = n + 3 := ⟨fuel - 3, by omega⟩
      have hvalue : ReadsAs (fuel + 2) (depth - 1) _ j (tailText ']' (renderItems js) ++ rest) :=
        hitems j List.mem_cons_self (by omega) (endsNumber_tailText (.inl rfl) _ rest) (by omega)
      obtain ⟨e, he⟩ : ∃ e, readItems (fuel + 2) (depth - 1) false
          (tailText ']' (renderItems js) ++ rest) = .error e :=
        readItems_overflow (fun k hk => hitems k (List.mem_cons_of_mem _ hk))
          (fun k hk => hover k (List.mem_cons_of_mem _ hk)) (by omega) (by omega) (by omega)
      exact ⟨e, by rw [readItems_first hvalue, he, readMore]⟩

/-- A failure to read the value of a field is a failure to read the field. -/
theorem readField_error {e : Stuck} {fields : Fields Json} (name : String)
    (h : readValue fuel depth cs = .error e) :
    readField (fuel + 1) depth fields (name.toList.flatMap escapeChar ++ '"' :: ':' :: cs) =
      .error e := by
  rw [readField, readString_escaped]
  simp only [Bind.bind, Except.bind, skipSpace_cons (show isSpace ':' = false by decide), if_true, h]

/-- Fields of which one is nested too deeply for what is left are not read. -/
theorem readFields_overflow {fields : List (String × Json)} {acc : Fields Json}
    (hfields : ∀ p ∈ fields, Reads p.2) (hover : ∀ p ∈ fields, Overflows p.2)
    (hdepth : 1 ≤ depth) (hnest : depth ≤ nestingOf fields)
    (hfuel : 2 * (tailText '\x7d' (renderFields fields)).length ≤ fuel) :
    ∃ e, readFields fuel depth false acc (tailText '\x7d' (renderFields fields) ++ rest) =
      .error e := by
  -- the induction is on the fields; the first one that is too deep ends the reading
  induction fields generalizing fuel acc with
  | nil => exact absurd hnest (Nat.not_le.mpr hdepth)
  | cons p fields ih =>
    obtain ⟨name, j⟩ := p
    rw [nestingOf] at hnest
    simp only [renderFields, tailText, List.length_cons, List.length_append] at hfuel ⊢
    have hpos := tailText_length_pos '\x7d' (renderFields fields)
    have hlength := length_render_lt_field name j
    obtain ⟨fuel, rfl⟩ : ∃ n, fuel = n + 3 := ⟨fuel - 3, by omega⟩
    rw [List.cons_append, List.append_assoc]
    -- the value is too deep, or is read and the depth is that of another field
    by_cases hj : depth ≤ j.nesting
    · have hjover : Overflows j := hover (name, j) List.mem_cons_self
      obtain ⟨e, he⟩ : ∃ e, readValue (fuel + 1) depth
          ((render j).toList ++ (tailText '\x7d' (renderFields fields) ++ rest)) = .error e :=
        hjover hdepth hj (by omega)
      refine ⟨e, ?_⟩
      rw [toList_field, readFields, skipSpace_cons (by decide)]
      simp only [show (',' : Char) ≠ '\x7d' by decide, if_false, Bool.false_eq_true, if_true,
        skipSpace_cons (show isSpace '"' = false by decide)]
      exact readField_error name he
    · have hjreads : Reads j := hfields (name, j) List.mem_cons_self
      have hvalue : ReadsAs (fuel + 1) depth _ j
          (tailText '\x7d' (renderFields fields) ++ rest) :=
        hjreads (by omega) (endsNumber_tailText (.inr rfl) _ rest) (by omega)
      rw [readFields_comma name hvalue]
      exact ih (fun q hq => hfields q (List.mem_cons_of_mem _ hq))
        (fun q hq => hover q (List.mem_cons_of_mem _ hq)) (by omega) (by omega)

/-- An object that is nested too deeply is not read, if neither are its fields. -/
theorem overflows_object {fields : List (String × Json)} (hfields : ∀ p ∈ fields, Reads p.2)
    (hover : ∀ p ∈ fields, Overflows p.2) : Overflows (.object fields) := by
  intro fuel depth rest hdepth hnest hfuel
  rw [nesting] at hnest
  rw [toList_render_object] at hfuel ⊢
  obtain ⟨fuel, rfl⟩ : ∃ n, fuel = n + 1 := ⟨fuel - 1, by simp at hfuel; omega⟩
  rw [List.cons_append]
  by_cases hone : depth ≤ 1
  · rw [readValue, skipSpace_cons (by decide)]
    exact ⟨_, if_pos hone⟩
  suffices ∃ e, readFields fuel (depth - 1) true []
      (bodyText '\x7d' (renderFields fields) ++ rest) = .error e by
    obtain ⟨e, he⟩ := this
    exact ⟨e, by rw [readValue_brace (Nat.lt_of_not_le hone), he]; rfl⟩
  cases fields with
  | nil =>
    rw [nestingOf] at hnest
    omega
  | cons p fields =>
    obtain ⟨name, j⟩ := p
    rw [nestingOf] at hnest
    simp only [renderFields, bodyText, List.length_cons, List.length_append] at hfuel ⊢
    have hpos := tailText_length_pos '\x7d' (renderFields fields)
    have hlength := length_render_lt_field name j
    obtain ⟨fuel, rfl⟩ : ∃ n, fuel = n + 3 := ⟨fuel - 3, by omega⟩
    rw [List.append_assoc]
    -- the first value is too deep, or is read and the depth is that of another field
    by_cases hj : depth - 1 ≤ j.nesting
    · have hjover : Overflows j := hover (name, j) List.mem_cons_self
      obtain ⟨e, he⟩ : ∃ e, readValue (fuel + 1) (depth - 1)
          ((render j).toList ++ (tailText '\x7d' (renderFields fields) ++ rest)) = .error e :=
        hjover (by omega) hj (by omega)
      refine ⟨e, ?_⟩
      rw [toList_field, readFields, skipSpace_cons (by decide)]
      simp only [show ('"' : Char) ≠ '\x7d' by decide, if_false, if_true]
      exact readField_error name he
    · have hjreads : Reads j := hfields (name, j) List.mem_cons_self
      have hvalue : ReadsAs (fuel + 1) (depth - 1) _ j
          (tailText '\x7d' (renderFields fields) ++ rest) :=
        hjreads (by omega) (endsNumber_tailText (.inr rfl) _ rest) (by omega)
      rw [readFields_first name hvalue]
      exact readFields_overflow (fun q hq => hfields q (List.mem_cons_of_mem _ hq))
        (fun q hq => hover q (List.mem_cons_of_mem _ hq)) (by omega) (by omega) (by omega)

mutual

/-- A datum that is nested too deeply is not read. The recursion is that of data, with one
lemma for each kind of nesting. -/
theorem overflows_of_isDatum : ∀ j : Json, j.isDatum = true →
    (∀ x ∈ j.doubles, readsBack x = true) → Overflows j
  | .null, _, _ => fun hdepth hnest => absurd hnest (Nat.not_le.mpr hdepth)
  | .bool _, _, _ => fun hdepth hnest => absurd hnest (Nat.not_le.mpr hdepth)
  | .int _, _, _ => fun hdepth hnest => absurd hnest (Nat.not_le.mpr hdepth)
  | .float _ _, _, _ => fun hdepth hnest => absurd hnest (Nat.not_le.mpr hdepth)
  | .text _, _, _ => fun hdepth hnest => absurd hnest (Nat.not_le.mpr hdepth)
  | .list items, hdatum, hdoubles =>
    overflows_list (reads_of_isDatumIn items hdatum hdoubles)
      (overflows_of_isDatumIn items hdatum hdoubles)
  | .object fields, hdatum, hdoubles => by
    obtain ⟨-, hdatum⟩ := (Bool.and_eq_true _ _).mp hdatum
    exact overflows_object (reads_of_isDatumOf fields hdatum hdoubles)
      (overflows_of_isDatumOf fields hdatum hdoubles)

theorem overflows_of_isDatumIn : ∀ items : List Json, isDatumIn items = true →
    (∀ x ∈ doublesIn items, readsBack x = true) → ∀ j ∈ items, Overflows j
  | [], _, _ => nofun
  | j :: js, hdatum, hdoubles => by
    obtain ⟨hj, hjs⟩ := (Bool.and_eq_true _ _).mp hdatum
    refine List.forall_mem_cons.mpr ⟨overflows_of_isDatum j hj fun x hx => ?_,
      overflows_of_isDatumIn js hjs fun x hx => ?_⟩
    · exact hdoubles x (List.mem_append_left _ hx)
    · exact hdoubles x (List.mem_append_right _ hx)

theorem overflows_of_isDatumOf : ∀ fields : List (String × Json), isDatumOf fields = true →
    (∀ x ∈ doublesOf fields, readsBack x = true) → ∀ p ∈ fields, Overflows p.2
  | [], _, _ => nofun
  | (_, j) :: fields, hdatum, hdoubles => by
    obtain ⟨hj, hfields⟩ := (Bool.and_eq_true _ _).mp hdatum
    refine List.forall_mem_cons.mpr ⟨overflows_of_isDatum j hj fun x hx => ?_,
      overflows_of_isDatumOf fields hfields fun x hx => ?_⟩
    · exact hdoubles x (List.mem_append_left _ hx)
    · exact hdoubles x (List.mem_append_right _ hx)

end

/-! ### Whole texts -/

/-- The whole text reads as what it reads as wherever it stands. -/
theorem parse_of_readsTo {k : Json} (hreads : ReadsTo j k) (hnest : j.nesting < maxNesting) :
    parse (render j) = .ok k := by
  obtain ⟨blanks, hblanks, hread⟩ : ReadsAs (3 * (render j).toList.length + 3) maxNesting
      ((render j).toList ++ []) k [] := hreads hnest endsNumber_nil (by omega)
  rw [List.append_nil] at hread
  have hskip : skipSpace (blanks ++ []) = [] := by
    rw [skipSpace_append hblanks]
    rfl
  have hwhole : readWhole (render j).toList = .ok k := by
    rw [readWhole, hread]
    simp only [Bind.bind, Except.bind, hskip]
    rfl
  simp only [parse, hwhole]

/-- The text of a datum reads back. -/
theorem parse_render (hdatum : j.isDatum = true)
    (hdoubles : ∀ x ∈ j.doubles, readsBack x = true) (hnest : j.nesting < maxNesting) :
    parse (render j) = .ok j :=
  parse_of_readsTo (reads_of_isDatum j hdatum hdoubles) hnest

/-- The text of a datum that nests too deep does not read. -/
theorem exists_parse_error (hdatum : j.isDatum = true)
    (hdoubles : ∀ x ∈ j.doubles, readsBack x = true) (hnest : maxNesting ≤ j.nesting) :
    ∃ fault, parse (render j) = .error fault := by
  obtain ⟨e, he⟩ : ∃ e, readValue (3 * (render j).toList.length + 3) maxNesting
      ((render j).toList ++ []) = .error e :=
    overflows_of_isDatum j hdatum hdoubles (by decide) hnest (by omega)
  rw [List.append_nil] at he
  have hwhole : readWhole (render j).toList = .error e := by
    rw [readWhole, he]
    rfl
  rw [parse, hwhole]
  exact ⟨_, rfl⟩

end Json

end Crossing
