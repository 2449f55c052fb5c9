import Crossing.Proofs.JoinedTexts
import Crossing.Transcript

/-!
# Strings that read back

A string is printed between quotes, with escapes in it. The reader knows four of these escapes:
those of the quote, the backslash, the end of a line and the tab. A carriage return, a NUL and
every other character that does not print has an escape that the reader takes for an error.

- `Token.unknownEscape`: the letter of such an escape;
- `Token.scanString_quoted_bad`: the first such character of a string ends the reading of it;
- `Host.strings_read_back_unless_escaped`: the other strings read back as they are.
-/

namespace Crossing

variable {c : Char} {before after rest : List Char}

namespace Token

/-! ### Escapes that the reader does not know -/

/-- The letter of the escape that a character has when the reader does not know it. -/
def unknownEscape (c : Char) : Char :=
  if c = '\r' then 'r' else if c = '\x00' then '0' else 'u'

/-- Those are the escapes of the carriage return, the NUL, and what else does not print. -/
theorem isPlainChar_eq_false_iff : isPlainChar c = false ↔
    c = '\r' ∨ c = '\x00' ∨ (isPrintable c = false ∧ c ≠ '\n' ∧ c ≠ '\t') := by
  have hquote : isPrintable '"' = true ∧ isPrintable '\\' = true := by decide
  unfold isPlainChar quoteChar
  -- a carriage return, NUL and characters that do not print are those that are not plain
  by_cases hr : c = '\r'
  · subst hr
    decide
  by_cases h0 : c = '\x00'
  · subst h0
    decide
  by_cases hprint : isPrintable c = true
  · simp only [hprint, Bool.true_eq_false, false_and, hr, h0, or_self, iff_false]
    split_ifs <;> simp_all
  · have hne : c ≠ '"' ∧ c ≠ '\\' := by
      constructor <;> rintro rfl
      · exact hprint hquote.1
      · exact hprint hquote.2
    by_cases hn : c = '\n'
    · simp [hn]
    by_cases ht : c = '\t'
    · simp [ht]
    simp [hr, h0, hprint, hne, hn, ht]

/-- What is no plain character is written as an escape that the reader does not know. -/
theorem exists_quoteChar (hc : isPlainChar c = false) :
    ∃ cs, quoteChar c = '\\' :: unknownEscape c :: cs := by
  obtain rfl | rfl | ⟨hprint, hn, ht⟩ := isPlainChar_eq_false_iff.mp hc
  · exact ⟨[], rfl⟩
  · exact ⟨[], rfl⟩
  · have hne : c ≠ '"' ∧ c ≠ '\\' := by
      constructor <;> rintro rfl <;> exact absurd hprint (by decide)
    unfold quoteChar unknownEscape
    rw [if_neg hne.1, if_neg hne.2, if_neg hn, if_neg ht]
    split_ifs
    · exact ⟨_, rfl⟩
    · exact ⟨_, rfl⟩
    · exact absurd ‹_› (Bool.eq_false_iff.mp hprint)
    · exact ⟨_, rfl⟩

/-- The reader does not know such an escape. -/
theorem unescape?_unknownEscape (c : Char) : unescape? (unknownEscape c) = none := by
  unfold unknownEscape
  split_ifs <;> rfl

/-- An error behind an escape is an error. -/
theorem scanString_escape_error {d d' : Char} {e : ReadError} (hd : unescape? d = some d')
    (h : scanString rest = .error e) : scanString ('\\' :: d :: rest) = .error e := by
  rw [scanString, if_neg (by decide), if_pos rfl]
  simp only [hd, h]

/-- What is wrong after a character is wrong with the string that starts with it. -/
theorem scanString_quoteChar_error {e : ReadError} (hc : isPlainChar c = true)
    (h : scanString rest = .error e) : scanString (quoteChar c ++ rest) = .error e := by
  simp only [isPlainChar, Bool.or_eq_true, beq_iff_eq] at hc
  -- a quote, a backslash, a tab and a line break are escaped in a way that the reader knows
  rcases hc with (((hc | rfl) | rfl) | rfl) | rfl
  · have hne : c ≠ '"' ∧ c ≠ '\\' := by
      constructor <;> rintro rfl <;> cases hc
    rw [hc]
    cases rest with
    | nil =>
      rw [List.append_nil, scanString, if_neg hne.1]
      exact h
    | cons d rest =>
      rw [List.singleton_append, scanString, if_neg hne.1, if_neg hne.2]
      simp only [h]
  · exact scanString_escape_error rfl h
  · exact scanString_escape_error rfl h
  · exact scanString_escape_error rfl h
  · exact scanString_escape_error rfl h

/-- The first character of a string whose escape the reader does not know is where the reading
of the string ends. -/
theorem scanString_quoted_bad (hbefore : ∀ d ∈ before, isPlainChar d = true)
    (hc : isPlainChar c = false) (rest : List Char) :
    scanString ((before ++ c :: after).flatMap quoteChar ++ rest) =
      .error (.badEscape (unknownEscape c)) := by
  induction before with
  | nil =>
    obtain ⟨cs, hcs⟩ := exists_quoteChar hc
    rw [List.nil_append, List.flatMap_cons, hcs, List.cons_append, List.cons_append,
      List.cons_append, List.cons_append, scanString, if_neg (by decide), if_pos rfl]
    simp only [unescape?_unknownEscape]
  | cons d before ih =>
    rw [List.cons_append, List.flatMap_cons, List.append_assoc]
    exact scanString_quoteChar_error (hbefore d List.mem_cons_self)
      (ih fun d' hd' => hbefore d' (List.mem_cons_of_mem d hd'))

/-- Such a string is no token: what is printed of it is one error. -/
theorem scan_quoted_bad {s : String} (hs : s.toList = before ++ c :: after)
    (hbefore : ∀ d ∈ before, isPlainChar d = true) (hc : isPlainChar c = false) :
    scan (quoted s).toList = [.bad (.badEscape (unknownEscape c))] := by
  have htext : (quoted s).toList =
      '"' :: ((before ++ c :: after).flatMap quoteChar ++ ['"']) := by
    simp [quoted, hs]
  rw [htext]
  exact scan_badString (scanString_quoted_bad hbefore hc ['"'])

end Token

/-! ### Printed strings -/

namespace Form

variable {s : String}

/-- A text of plain characters is read back. -/
theorem readAll_quoted (hs : ∀ d ∈ s.toList, Token.isPlainChar d = true) :
    readAll (quoted s) = .ok [.text s] := by
  have hplain : (Form.text s).IsPlain := hs
  have hchars : quoted s = String.ofList (Form.text s).chars := by
    rw [chars, String.ofList_toList]
  rw [hchars]
  exact readAll_chars hplain

/-- A text with another character is rejected at the first such. -/
theorem readAll_quoted_bad (hs : s.toList = before ++ c :: after)
    (hbefore : ∀ d ∈ before, Token.isPlainChar d = true) (hc : Token.isPlainChar c = false) :
    readAll (quoted s) = .error ⟨.badEscape (Token.unknownEscape c), []⟩ := by
  rw [readAll, Token.scan_quoted_bad hs hbefore hc]
  rfl

end Form

/-- A string is printed between quotes. -/
theorem Heap.print_of_text? {h : Heap} {o : Obj} {s : String} (ho : h.text? o = some s) :
    h.print o = quoted s := by
  unfold Heap.text? at ho
  split at ho
  · rename_i hshape
    cases ho
    rw [print, printWithin, hshape]
  · cases ho

namespace Host

open Proc

variable {w : World} {o : Obj} {s : String}

/-- What is printed of a string reads back as one string of the same text, and nothing but new
objects has come of it, if the reader knows all its escapes. Otherwise it does not read at all:
the error is the first escape that the reader does not know, and nothing has come of it. -/
theorem strings_read_back_unless_escaped (ho : w.host.heap.text? o = some s) :
    ((∀ d ∈ s.toList, Token.isPlainChar d = true) →
      ∃ a w₁, (read (w.host.heap.print o)).run w = (.ok [.ref a], w₁) ∧ w.BuildsTo w₁ ∧
        w₁.host.heap.text? (.ref a) = some s) ∧
    ∀ before c after, s.toList = before ++ c :: after →
      (∀ d ∈ before, Token.isPlainChar d = true) → Token.isPlainChar c = false →
      (read (w.host.heap.print o)).run w =
        (.error (.failure (.signal (.badSyntax (.badEscape (Token.unknownEscape c))))), w) := by
  rw [Heap.print_of_text? ho]
  constructor
  · intro hs
    obtain ⟨os, w₁, hgives, hb, a, rest, rfl, hmeans, rfl⟩ :=
      builds_ofForms [.text s] (w := w) (List.forall_mem_nil _)
    obtain ⟨a, rfl, ha⟩ := hmeans
    rw [← read_of_accepted (Form.readAll_quoted hs)] at hgives
    exact ⟨a, w₁, hgives.run (Nat.zero_le _), hb, by rw [Heap.text?, Heap.shape_ref ha]⟩
  · intro before c after hs hbefore hc
    rw [read_of_rejected (Form.readAll_quoted_bad hs hbefore hc)]
    have hfails : (fail (.signal (.badSyntax (.badEscape (Token.unknownEscape c)))) :
        Proc (List Obj)).Gives 0 w _ w := gives_fail _
    exact hfails.run (Nat.zero_le _)

end Host

/-- The world in which a program has made a string. -/
def World.withText (s : String) : World := ((Change.make (.text s)).run (.initial .standard)).2

/-- A tab reads back; a carriage return after it does not. -/
theorem Host.strings_read_back_unless_escaped_tab :
    (∃ a w₁, (read ((World.withText "a\tb").host.heap.print (.ref 156))).run
        (World.withText "a\tb") = (.ok [.ref a], w₁) ∧
      w₁.host.heap.text? (.ref a) = some "a\tb") ∧
    (read ((World.withText "a\t\r").host.heap.print (.ref 156))).run (World.withText "a\t\r") =
      (.error (.failure (.signal (.badSyntax (.badEscape 'r')))), World.withText "a\t\r") := by
  have htab : (World.withText "a\tb").host.heap.text? (.ref 156) = some "a\tb" := by
    rw [World.withText, World.initial_eq]
    decide +kernel
  have hreturn : (World.withText "a\t\r").host.heap.text? (.ref 156) = some "a\t\r" := by
    rw [World.withText, World.initial_eq]
    decide +kernel
  obtain ⟨a, w₁, hread, -, ha⟩ := (strings_read_back_unless_escaped htab).1
    (List.all_eq_true.mp (by decide +kernel))
  exact ⟨⟨a, w₁, hread, ha⟩, (strings_read_back_unless_escaped hreturn).2 ['a', '\t'] '\r' []
    (by decide +kernel) (List.all_eq_true.mp (by decide +kernel)) (by decide +kernel)⟩

/-- A carriage return is printed as an escape, and this escape is an error. -/
theorem Transcript.carriage_return_does_not_read_back :
    Transcript.ofForms (String.ofList ['"', '\r', '"']) = .ok [("string", "\"\\r\"")] ∧
      Transcript.ofForms "\"\\r\"" = .error (.badEscape 'r') := by
  simp only [Transcript.ofForms, World.initial_eq]
  decide +kernel

end Crossing
