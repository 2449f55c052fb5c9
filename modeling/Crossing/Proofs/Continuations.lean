import Crossing.Proofs.Phrases

/-!
# Unfinished and wrong texts

A text that the reader does not accept has either ended too early or is wrong. Where the tokens
stop being forms, a token stands that keeps its first character when the text goes on, or none
does. In the second case the text can go on so that the reader accepts it: a string comes to its
end, and everything that is open is closed.

- `Phrase.Halts.of_growsInto`, `Form.HaltAt.of_continues`: what is wrong stays wrong;
- `Phrase.Halts.exists_reads`, `Form.HaltAt.exists_readAs`: what is unfinished can be finished;
- `Form.errors_tell_unfinished_from_wrong`: the errors say which of the two it is.
-/

namespace Crossing

variable {k : Phrase} {t t' : Token} {ts us before rest : List Token} {halt : Form.Halt}

/-- The text has ended too early. -/
def Form.Halt.IsEarly (halt : Form.Halt) : Prop := ∃ u, halt.error = .unfinished u

namespace Phrase

/-! ### What is wrong stays wrong -/

/-- What grows out of a token may start an item if that may. -/
theorem StartsItem.of_growsInto (ht : k.StartsItem t) (hgrows : Token.GrowsInto t t') :
    k.StartsItem t' := by
  cases k with
  | form => exact ht
  | list =>
    refine ⟨hgrows.ne_closing ht.1, ?_⟩
    rintro rfl
    cases hgrows
    exact ht.2 rfl
  | vector =>
    rintro rfl
    cases hgrows
    exact ht rfl

/-- What is wrong is so because of a token, whatever comes of the token and after it. -/
theorem Halts.of_growsInto (h : Halts k before rest halt) (hwrong : ¬halt.IsEarly) :
    ∃ t us, rest = t :: us ∧
      ∀ t' us', Token.GrowsInto t t' → Halts k before (t' :: us') halt := by
  induction h with
  | atEnd | dottedEnd => exact absurd ⟨_, rfl⟩ hwrong
  | closing rest =>
    refine ⟨_, rest, rfl, fun t' us' hgrows => ?_⟩
    cases hgrows
    exact .closing us'
  | closingVector rest =>
    refine ⟨_, rest, rfl, fun t' us' hgrows => ?_⟩
    cases hgrows
    exact .closingVector us'
  | bad e rest =>
    refine ⟨_, rest, rfl, fun t' us' hgrows => ?_⟩
    cases hgrows with
    | refl => exact .bad e us'
    | text u | bad u => exact absurd ⟨u, rfl⟩ hwrong
  | quoted _ ih =>
    obtain ⟨t, us, hrest, hstays⟩ := ih hwrong
    exact ⟨t, us, hrest, fun t' us' hgrows => .quoted (hstays t' us' hgrows)⟩
  | list _ ih =>
    obtain ⟨t, us, hrest, hstays⟩ := ih hwrong
    exact ⟨t, us, hrest, fun t' us' hgrows => .list (hstays t' us' hgrows)⟩
  | vector _ ih =>
    obtain ⟨t, us, hrest, hstays⟩ := ih hwrong
    exact ⟨t, us, hrest, fun t' us' hgrows => .vector (hstays t' us' hgrows)⟩
  | dotted _ ih =>
    obtain ⟨t, us, hrest, hstays⟩ := ih hwrong
    exact ⟨t, us, hrest, fun t' us' hgrows => .dotted (hstays t' us' hgrows)⟩
  | dottedMore h ht rest =>
    refine ⟨_, rest, rfl, fun t' us' hgrows => ?_⟩
    rw [← hgrows.firstChar_eq]
    exact .dottedMore h (hgrows.ne_closing ht) us'
  | @item k t ts rest halt ht hhead _ ih =>
    obtain ⟨u, us, rfl, hstays⟩ := ih hwrong
    refine ⟨u, us, rfl, fun t' us' hgrows => ?_⟩
    -- the token is the first one of the item if the item has none before it
    cases ts with
    | nil =>
      obtain rfl : u = t := Option.some.inj hhead
      exact .item (ht.of_growsInto hgrows) rfl (hstays t' us' hgrows)
    | cons s ts => exact .item ht hhead (hstays t' us' hgrows)
  | afterItem ht hf _ ih =>
    obtain ⟨t, us, hrest, hstays⟩ := ih hwrong
    exact ⟨t, us, hrest, fun t' us' hgrows => .afterItem ht hf (hstays t' us' hgrows)⟩

/-! ### What is unfinished can be finished -/

/-- A token that a text can always go on with, after a blank and before one. -/
def IsCloser (t : Token) : Prop := t = .atom 'a' [] ∨ t = .closing ∨ t = .closingVector

/-- Some tokens are a phrase of each kind. -/
theorem exists_reads (k : Phrase) : ∃ us a, (∀ t ∈ us, IsCloser t) ∧ Reads k us a := by
  cases k with
  | form => exact ⟨_, _, List.forall_mem_singleton.mpr (.inl rfl), .atom 'a' []⟩
  | list => exact ⟨_, _, List.forall_mem_singleton.mpr (.inr (.inl rfl)), .closing⟩
  | vector => exact ⟨_, _, List.forall_mem_singleton.mpr (.inr (.inr rfl)), .closingVector⟩

/-- A string that has come to its end starts an item like one that has not. -/
theorem exists_mend_eq_cons (s : String) (ht : k.StartsItem t) (hhead : ts.head? = some t) :
    ∃ t' us, Token.mend s ts = t' :: us ∧ k.StartsItem t' := by
  obtain ⟨ts, rfl⟩ := List.head?_eq_some_iff.mp hhead
  have hsame : t.IsWhole → ∃ t' us, Token.mend s (t :: ts) = t' :: us ∧ k.StartsItem t' :=
    fun hwhole => ⟨t, _, Token.mend_cons s hwhole ts, ht⟩
  cases t with
  | bad e =>
    cases e with
    | unfinished u =>
      refine ⟨.text s, [], rfl, ?_⟩
      cases k with
      | form => exact ht
      | list => exact ⟨nofun, nofun⟩
      | vector => exact nofun
    | _ => exact ⟨_, Token.mend s ts, rfl, ht⟩
  | _ => exact hsame nofun

/-- Where the tokens end too early, closing what is open makes them a phrase. -/
theorem Halts.exists_reads (h : Halts k before rest halt) (hearly : halt.IsEarly) (s : String) :
    ∃ us a, (∀ t ∈ us, IsCloser t) ∧ Reads k (Token.mend s (before ++ rest) ++ us) a := by
  -- a reading that ended early is continued by what closes the innermost form, and then by that of
  -- the forms around it
  induction h with
  | atEnd k => exact k.exists_reads
  | closing | closingVector | dottedMore => exact absurd hearly nofun
  | bad e rest =>
    obtain ⟨u, rfl⟩ := hearly
    exact ⟨[], _, List.forall_mem_nil _, .text s⟩
  | quoted _ ih =>
    obtain ⟨us, f, hus, h⟩ := ih hearly
    exact ⟨us, _, hus, .quoted h⟩
  | list _ ih =>
    obtain ⟨us, a, hus, h⟩ := ih hearly
    exact ⟨us, _, hus, .list h⟩
  | vector _ ih =>
    obtain ⟨us, items, hus, h⟩ := ih hearly
    exact ⟨us, _, hus, .vector h⟩
  | dotted _ ih =>
    obtain ⟨us, last, hus, h⟩ := ih hearly
    refine ⟨us ++ [.closing], ([], some last), List.forall_mem_append.mpr
      ⟨hus, List.forall_mem_singleton.mpr (.inr (.inl rfl))⟩, ?_⟩
    rw [← List.append_assoc]
    exact .dotted h
  | @dottedEnd ts last h =>
    refine ⟨[.closing], ([], some last), List.forall_mem_singleton.mpr (.inr (.inl rfl)), ?_⟩
    rw [List.append_nil, Token.mend_cons s (show Token.IsWhole .dot from nofun), Token.mend_eq_self s h.isWhole]
    exact .dotted h
  | @item k t ts rest halt ht hhead _ ih =>
    obtain ⟨us, f, hus, hf⟩ := ih hearly
    obtain ⟨us', a, hus', ha⟩ := k.exists_reads
    obtain ⟨t', vs, hmend, ht'⟩ := exists_mend_eq_cons s ht hhead
    refine ⟨us ++ us', k.cons f a, List.forall_mem_append.mpr ⟨hus, hus'⟩, ?_⟩
    rw [← List.append_assoc]
    rw [hmend] at hf ⊢
    exact .item ht' hf ha
  | @afterItem k t ts us' rest f halt ht hf _ ih =>
    obtain ⟨us, a, hus, h⟩ := ih hearly
    refine ⟨us, k.cons f a, hus, ?_⟩
    rw [List.append_assoc, Token.mend_append s hf.isWhole, List.append_assoc]
    exact .item ht hf h

end Phrase

namespace Form

/-- What is wrong stays wrong, and no symbol is named that was not. -/
theorem HaltAt.of_continues (h : HaltAt before rest halt) (hwrong : ¬halt.IsEarly)
    (hcontinues : Token.Continues (before ++ rest) ts) :
    ∃ rest', ts = before ++ rest' ∧ HaltAt before rest' halt := by
  have hstays : ∃ t us, rest = t :: us ∧
      ∀ t' us', Token.GrowsInto t t' → HaltAt before (t' :: us') halt := by
    clear hcontinues
    induction h with
    | first _ h =>
      obtain ⟨t, us, hrest, hstays⟩ := h.of_growsInto hwrong
      exact ⟨t, us, hrest, fun t' us' hgrows => .first (by simp) (hstays t' us' hgrows)⟩
    | after hf _ ih =>
      obtain ⟨t, us, hrest, hstays⟩ := ih hwrong
      exact ⟨t, us, hrest, fun t' us' hgrows => .after hf (hstays t' us' hgrows)⟩
  obtain ⟨t, us, rfl, hstays⟩ := hstays
  obtain ⟨t', vs, hts, hgrows⟩ := hcontinues.exists_of_append
  exact ⟨t' :: vs, hts, hstays t' vs hgrows⟩

/-- A text that ends too early is forms once what is open is closed. -/
theorem HaltAt.exists_readAs (h : HaltAt before rest halt) (hearly : halt.IsEarly) (s : String) :
    ∃ us fs, (∀ t ∈ us, Phrase.IsCloser t) ∧ ReadAs (Token.mend s (before ++ rest) ++ us) fs := by
  induction h with
  | first _ h =>
    obtain ⟨us, f, hus, hf⟩ := h.exists_reads hearly s
    refine ⟨us, [f], hus, ?_⟩
    rw [← List.append_nil (_ ++ us)]
    exact .cons hf .nil
  | @after ts us' rest f halt hf _ ih =>
    obtain ⟨us, fs, hus, h⟩ := ih hearly
    refine ⟨us, f :: fs, hus, ?_⟩
    rw [List.append_assoc, Token.mend_append s hf.isWhole, List.append_assoc]
    exact .cons hf h

end Form

/-! ### Texts of what closes -/

/-- The text of tokens that close what is open. -/
def Token.closers (us : List Token) : List Char := us.flatMap fun t => [t.firstChar, ' ']

/-- Closing tokens are scanned one by one. -/
theorem Token.scan_closers (hus : ∀ t ∈ us, Phrase.IsCloser t) : scan (closers us) = us := by
  induction us with
  | nil => rfl
  | cons t us ih =>
    obtain ⟨ht, hus⟩ := List.forall_mem_cons.mp hus
    have hrest : scan (' ' :: closers us) = us := (scan_of_isBlank rfl _).trans (ih hus)
    rcases ht with rfl | rfl | rfl
    · have hword : ∀ d ∈ ['a'], isDelimiter d = false := List.forall_mem_singleton.mpr rfl
      have hend : EndsAtom (' ' :: closers us) := endsAtom_cons rfl _
      exact (scan_atom hword (by decide) hend).trans (congrArg _ hrest)
    · exact (scan_mark rfl _).trans (congrArg _ hrest)
    · exact (scan_mark rfl _).trans (congrArg _ hrest)

namespace Form

/-- A text that is wrong stays wrong whatever follows. -/
theorem readAll_append_of_wrong {text : String} (h : readAll text = .error halt)
    (hwrong : ¬halt.IsEarly) (more : String) : readAll (text ++ more) = .error halt := by
  obtain ⟨before, rest, hsplit, h⟩ := readAll_eq_error_iff.mp h
  have hcontinues := Token.continues_scan text.toList more.toList
  rw [hsplit, ← String.toList_append] at hcontinues
  obtain ⟨rest', hscan, h'⟩ := h.of_continues hwrong hcontinues
  exact readAll_eq_error_iff.mpr ⟨before, rest', hscan, h'⟩

/-- A text that ended early has a continuation that is accepted. -/
theorem exists_readAll_append {text : String} (h : readAll text = .error halt)
    (hearly : halt.IsEarly) : ∃ more fs, readAll (text ++ more) = .ok fs := by
  obtain ⟨before, rest, hsplit, h⟩ := readAll_eq_error_iff.mp h
  obtain ⟨ds, s, hmend⟩ := Token.exists_scan_mend text.toList
  obtain ⟨us, fs, hus, hread⟩ := h.exists_readAs hearly s
  rw [← hsplit, ← hmend] at hread
  have hwhole := (List.forall_mem_append.mp hread.isWhole).1
  refine ⟨String.ofList (ds ++ '\n' :: Token.closers us), fs, readAll_eq_ok_iff.mpr ?_⟩
  rw [String.toList_append, String.toList_ofList, ← List.append_assoc, Token.scan_line hwhole,
    Token.scan_closers hus]
  exact hread

/-- The errors of the reader tell a text that has ended too early from one that is wrong. The
reader fails for the end of a text if and only if it does not accept the text, but accepts some
text that the text goes on to. When it fails for anything else, it fails alike however the text
goes on. What is read comes to an end: any fuel above twice the length of the text gives the
same. -/
theorem errors_tell_unfinished_from_wrong (text : String) :
    ((∃ u named, readAll text = .error ⟨.unfinished u, named⟩) ↔
      (¬∃ fs, readAll text = .ok fs) ∧ ∃ more fs, readAll (text ++ more) = .ok fs) ∧
    (∀ e named, readAll text = .error ⟨e, named⟩ → (∀ u, e ≠ .unfinished u) →
      ∀ more, readAll (text ++ more) = .error ⟨e, named⟩) ∧
    ∀ n, 2 * text.toList.length < n → readAllWithin n text = readAll text := by
  refine ⟨⟨?_, ?_⟩, fun e named h hwrong => readAll_append_of_wrong h fun ⟨u, hu⟩ => hwrong u hu,
    fun n => readAllWithin_eq⟩
  · rintro ⟨u, named, h⟩
    exact ⟨fun ⟨fs, hok⟩ => (nomatch h.symm.trans hok), exists_readAll_append h ⟨u, rfl⟩⟩
  · rintro ⟨hrejected, more, fs, haccepted⟩
    cases hread : readAll text with
    | ok fs => exact absurd ⟨fs, hread⟩ hrejected
    | error halt =>
      -- a text that is wrong would have no accepted one that it goes on to
      by_cases hearly : halt.IsEarly
      · obtain ⟨u, hu⟩ := hearly
        exact ⟨u, halt.named, by rw [← hu]⟩
      · cases (readAll_append_of_wrong hread hearly more).symm.trans haccepted

/-- A dot before the last item of a list, a string after a backslash and a lone parenthesis. -/
example : readAll "(a . b" = .error ⟨.unfinished .dottedList, ["a", "b"]⟩ ∧
    readAll "\"a\\" = .error ⟨.unfinished .string, []⟩ ∧
    readAll "a )" = .error ⟨.unexpected ')', ["a"]⟩ :=
  ⟨rfl, rfl, rfl⟩

end Form

end Crossing
