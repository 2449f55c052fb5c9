import Crossing.Proofs.Lexemes

/-!
# Phrases

What is read off tokens: a form, the rest of a list or the rest of a vector. A grammar says which
tokens are such a phrase and what it means, and where the tokens of a text stop being one. The
reader follows the grammar, and the fuel that it gets never runs out.

- `Phrase.Reads`: tokens are a phrase; `Phrase.Halts`: they are none;
- `Phrase.read_of_reads`, `Phrase.read_of_halts`: what the reader gives of either;
- `Phrase.reads_or_halts`: the tokens of a text are either, so that `Phrase.read_eq` holds: any
  fuel that is enough gives the same;
- `Form.ReadAs`, `Form.HaltAt`: the same of whole texts, up to `Form.readAll_eq_ok_iff` and
  `Form.readAll_eq_error_iff`.
-/

namespace Crossing

variable {n : Nat} {t : Token} {ts us rest before : List Token} {f : Form} {halt : Form.Halt}

/-- What is read off tokens: a form, what follows the opening parenthesis of a list or some of its
items, and what follows the opening bracket of a vector or some of its items. -/
inductive Phrase where
  | form
  | list
  | vector

namespace Phrase

/-- What a phrase means. -/
abbrev Meaning : Phrase → Type
  | .form => Form
  | .list => List Form × Option Form
  | .vector => List Form

/-- What a text is inside of that ends where a phrase should start. -/
def unfinished : Phrase → Unfinished
  | .form => .form
  | .list => .list
  | .vector => .vector

/-- Whether an item starts with a token. -/
def StartsItem : Phrase → Token → Prop
  | .form, _ => False
  | .list, t => t ≠ .closing ∧ t ≠ .dot
  | .vector, t => t ≠ .closingVector

/-- What an item and the rest mean together. -/
def cons : (k : Phrase) → Form → k.Meaning → k.Meaning
  | .form, _, g => g
  | .list, f, a => (f :: a.1, a.2)
  | .vector, f, items => f :: items

/-- The reader of a phrase. -/
def read : (k : Phrase) → (fuel : Nat) → List Token → Except Form.Halt (Form.Part k.Meaning)
  | .form => Form.readForm
  | .list => Form.readList
  | .vector => Form.readVector

/-- The fuel that is enough for a number of tokens. -/
def fuel : Phrase → Nat → Nat
  | .form, count => 2 * count
  | .list, count => 2 * count + 1
  | .vector, count => 2 * count + 1

variable {k : Phrase} {a : k.Meaning}

/-! ### The grammar -/

/-- The tokens are a phrase, and what it means. -/
inductive Reads : (k : Phrase) → List Token → k.Meaning → Prop where
  | atom (c : Char) (cs : List Char) : Reads .form [.atom c cs] (Form.ofAtom c cs)
  | dot : Reads .form [.dot] (.symbol ".")
  | text (s : String) : Reads .form [.text s] (.text s)
  | quoted {ts : List Token} {f : Form} (h : Reads .form ts f) :
    Reads .form (.quoteMark :: ts) (.list [.symbol "quote", f])
  | list {ts : List Token} {items : List Form} {last : Option Form}
    (h : Reads .list ts (items, last)) : Reads .form (.opening :: ts) (Form.ofItems items last)
  | vector {ts : List Token} {items : List Form} (h : Reads .vector ts items) :
    Reads .form (.openingVector :: ts) (.vector items)
  | closing : Reads .list [.closing] ([], none)
  | dotted {ts : List Token} {last : Form} (h : Reads .form ts last) :
    Reads .list (.dot :: (ts ++ [.closing])) ([], some last)
  | closingVector : Reads .vector [.closingVector] []
  | item {k : Phrase} {t : Token} {ts us : List Token} {f : Form} {a : k.Meaning}
    (ht : k.StartsItem t) (hf : Reads .form (t :: ts) f) (hrest : Reads k us a) :
    Reads k (t :: ts ++ us) (k.cons f a)

/-- The tokens are no phrase: up to some place they could become one, but not with the token
there, or there is none. -/
inductive Halts : (k : Phrase) → (before rest : List Token) → Form.Halt → Prop where
  | atEnd (k : Phrase) : Halts k [] [] ⟨.unfinished k.unfinished, []⟩
  | closing (rest : List Token) : Halts .form [] (.closing :: rest) ⟨.unexpected ')', []⟩
  | closingVector (rest : List Token) :
    Halts .form [] (.closingVector :: rest) ⟨.unexpected ']', []⟩
  | bad (e : ReadError) (rest : List Token) : Halts .form [] (.bad e :: rest) ⟨e, []⟩
  | quoted {ts rest : List Token} {halt : Form.Halt} (h : Halts .form ts rest halt) :
    Halts .form (.quoteMark :: ts) rest halt
  | list {ts rest : List Token} {halt : Form.Halt} (h : Halts .list ts rest halt) :
    Halts .form (.opening :: ts) rest halt
  | vector {ts rest : List Token} {halt : Form.Halt} (h : Halts .vector ts rest halt) :
    Halts .form (.openingVector :: ts) rest halt
  | dotted {ts rest : List Token} {halt : Form.Halt} (h : Halts .form ts rest halt) :
    Halts .list (.dot :: ts) rest halt
  | dottedEnd {ts : List Token} {last : Form} (h : Reads .form ts last) :
    Halts .list (.dot :: ts) [] ⟨.unfinished .dottedList, last.names⟩
  | dottedMore {t : Token} {ts : List Token} {last : Form} (h : Reads .form ts last)
    (ht : t ≠ .closing) (rest : List Token) :
    Halts .list (.dot :: ts) (t :: rest) ⟨.unexpected t.firstChar, last.names⟩
  | item {k : Phrase} {t : Token} {ts rest : List Token} {halt : Form.Halt}
    (ht : k.StartsItem t) (hhead : (ts ++ rest).head? = some t) (h : Halts .form ts rest halt) :
    Halts k ts rest halt
  | afterItem {k : Phrase} {t : Token} {ts us rest : List Token} {f : Form} {halt : Form.Halt}
    (ht : k.StartsItem t) (hf : Reads .form (t :: ts) f) (h : Halts k us rest halt) :
    Halts k (t :: ts ++ us) rest (halt.after f)

/-- What is read takes at least one token. -/
theorem Reads.ne_nil (h : Reads k ts a) : ts ≠ [] := by
  cases h <;> exact List.cons_ne_nil _ _

/-- A phrase has no token for a string that cannot be read. -/
theorem Reads.isWhole (h : Reads k ts a) : ∀ t ∈ ts, t.IsWhole := by
  induction h with
  | atom | dot | text | closing | closingVector =>
    intro t ht
    obtain rfl := List.mem_singleton.mp ht
    exact nofun
  | quoted _ ih | list _ ih | vector _ ih => exact List.forall_mem_cons.mpr ⟨nofun, ih⟩
  | dotted _ ih =>
    refine List.forall_mem_cons.mpr ⟨nofun, List.forall_mem_append.mpr ⟨ih, fun t ht => ?_⟩⟩
    obtain rfl := List.mem_singleton.mp ht
    exact nofun
  | item _ _ _ hf hrest => exact List.forall_mem_append.mpr ⟨hf, hrest⟩

/-! ### The reader follows the grammar -/

/-- An item is read, and then the rest. -/
theorem read_item (ht : k.StartsItem t) : k.read (n + 1) (t :: ts) =
    match Form.readForm n (t :: ts) with
    | .error halt => .error halt
    | .ok (f, rest) => match k.read n rest with
      | .error halt => .error (halt.after f)
      | .ok (a, rest) => .ok (k.cons f a, rest) := by
  -- items of a list may end in a dot and a last form, and those of a vector do not
  cases k with
  | form => exact ht.elim
  | list =>
    rw [read, Form.readList]
    · rcases Form.readForm n (t :: ts) with halt | ⟨f, rest⟩
      · rfl
      · rcases hlist : Form.readList n rest with halt | ⟨⟨items, last⟩, rest⟩ <;>
          simp only [Bind.bind, Except.bind, hlist, cons]
    · exact ht.1
    · exact ht.2
  | vector =>
    rw [read, Form.readVector]
    · rcases Form.readForm n (t :: ts) with halt | ⟨f, rest⟩
      · rfl
      · rcases hvector : Form.readVector n rest with halt | ⟨items, rest⟩ <;>
          simp only [Bind.bind, Except.bind, hvector, cons]
    · exact ht

/-- There is fuel to start with. -/
theorem exists_fuel (h : k.fuel (ts.length + 1) ≤ n) : ∃ m, n = m + 1 := by
  refine ⟨n - 1, ?_⟩
  cases k <;> simp only [fuel] at h <;> omega

/-- What a phrase means is read off its tokens, whatever follows. -/
theorem read_of_reads (h : Reads k ts a) (us : List Token)
    (hn : k.fuel (ts ++ us).length ≤ n) : k.read n (ts ++ us) = .ok (a, us) := by
  -- the induction is on how the tokens were read
  induction h generalizing us n with
  | atom | dot | text | closing | closingVector =>
    obtain ⟨n, rfl⟩ := exists_fuel hn
    rfl
  | @quoted ts f _ ih =>
    obtain ⟨n, rfl⟩ := exists_fuel hn
    have hform : Form.readForm n (ts ++ us) = .ok (f, us) := ih us (by
      simp only [fuel, List.cons_append, List.length_cons] at hn ⊢
      omega)
    rw [List.cons_append, read, Form.readForm, hform]
    rfl
  | @list ts items last _ ih =>
    obtain ⟨n, rfl⟩ := exists_fuel hn
    have hlist : Form.readList n (ts ++ us) = .ok ((items, last), us) := ih us (by
      simp only [fuel, List.cons_append, List.length_cons] at hn ⊢
      omega)
    rw [List.cons_append, read, Form.readForm, hlist]
    rfl
  | @vector ts items _ ih =>
    obtain ⟨n, rfl⟩ := exists_fuel hn
    have hvector : Form.readVector n (ts ++ us) = .ok (items, us) := ih us (by
      simp only [fuel, List.cons_append, List.length_cons] at hn ⊢
      omega)
    rw [List.cons_append, read, Form.readForm, hvector]
    rfl
  | @dotted ts last _ ih =>
    obtain ⟨n, rfl⟩ := exists_fuel hn
    have hlast : Form.readForm n (ts ++ .closing :: us) = .ok (last, .closing :: us) :=
      ih (.closing :: us) (by
        simp only [fuel, List.cons_append, List.append_assoc, List.length_cons,
          List.length_append, List.length_nil] at hn ⊢
        omega)
    rw [List.cons_append, List.append_assoc, read, Form.readList]
    change (Form.readForm n (ts ++ .closing :: us)).bind _ = _
    rw [hlast]
    rfl
  | @item k t ts us' f a ht _ _ ihf ihrest =>
    obtain ⟨n, rfl⟩ := exists_fuel hn
    simp only [List.cons_append, List.append_assoc, List.length_cons, List.length_append] at hn
    have hform : Form.readForm n (t :: ts ++ (us' ++ us)) = .ok (f, us' ++ us) :=
      ihf (us' ++ us) (by
        simp only [fuel, List.cons_append, List.length_cons, List.length_append]
        cases k <;> simp only [fuel] at hn
        · exact ht.elim
        all_goals omega)
    have hrest : k.read n (us' ++ us) = .ok (a, us) := ihrest us (by
      rw [List.length_append]
      cases k <;> simp only [fuel] at hn ⊢ <;> omega)
    rw [List.append_assoc, List.cons_append, read_item ht]
    rw [List.cons_append] at hform
    simp only [hform, hrest]

/-- Where tokens are no phrase, the reader halts, and says so. -/
theorem read_of_halts (h : Halts k before rest halt)
    (hn : k.fuel (before ++ rest).length ≤ n) : k.read n (before ++ rest) = .error halt := by
  -- the induction is on how the tokens halt
  induction h generalizing n with
  | atEnd k => cases k <;> cases n <;> rfl
  | closing | closingVector | bad =>
    obtain ⟨n, rfl⟩ := exists_fuel hn
    rfl
  | @quoted ts rest halt _ ih =>
    obtain ⟨n, rfl⟩ := exists_fuel hn
    have hform : Form.readForm n (ts ++ rest) = .error halt := ih (by
      simp only [fuel, List.cons_append, List.length_cons] at hn ⊢
      omega)
    rw [List.cons_append, read, Form.readForm, hform]
    rfl
  | @list ts rest halt _ ih =>
    obtain ⟨n, rfl⟩ := exists_fuel hn
    have hlist : Form.readList n (ts ++ rest) = .error halt := ih (by
      simp only [fuel, List.cons_append, List.length_cons] at hn ⊢
      omega)
    rw [List.cons_append, read, Form.readForm, hlist]
    rfl
  | @vector ts rest halt _ ih =>
    obtain ⟨n, rfl⟩ := exists_fuel hn
    have hvector : Form.readVector n (ts ++ rest) = .error halt := ih (by
      simp only [fuel, List.cons_append, List.length_cons] at hn ⊢
      omega)
    rw [List.cons_append, read, Form.readForm, hvector]
    rfl
  | @dotted ts rest halt _ ih =>
    obtain ⟨n, rfl⟩ := exists_fuel hn
    have hform : Form.readForm n (ts ++ rest) = .error halt := ih (by
      simp only [fuel, List.cons_append, List.length_cons] at hn ⊢
      omega)
    rw [List.cons_append, read, Form.readList, hform]
    rfl
  | @dottedEnd ts last h =>
    obtain ⟨n, rfl⟩ := exists_fuel hn
    have hlast : Form.readForm n (ts ++ []) = .ok (last, []) := read_of_reads h [] (by
      simp only [fuel, List.cons_append, List.length_cons] at hn ⊢
      omega)
    rw [List.cons_append, read, Form.readList, hlast]
    rfl
  | @dottedMore t ts last h ht rest =>
    obtain ⟨n, rfl⟩ := exists_fuel hn
    have hlast : Form.readForm n (ts ++ t :: rest) = .ok (last, t :: rest) :=
      read_of_reads h (t :: rest) (by
        simp only [fuel, List.cons_append, List.length_cons] at hn ⊢
        omega)
    rw [List.cons_append, read, Form.readList, hlast]
    cases t with
    | closing => exact absurd rfl ht
    | _ => rfl
  | @item k t ts rest halt ht hhead _ ih =>
    obtain ⟨us, hus⟩ := List.head?_eq_some_iff.mp hhead
    rw [hus, List.length_cons] at hn
    obtain ⟨n, rfl⟩ := exists_fuel hn
    have hform : Form.readForm n (ts ++ rest) = .error halt := ih (by
      rw [hus, List.length_cons]
      cases k <;> simp only [fuel] at hn ⊢
      · exact ht.elim
      all_goals omega)
    rw [hus] at hform ⊢
    rw [read_item ht, hform]
  | @afterItem k t ts us rest f halt ht hf _ ih =>
    obtain ⟨n, rfl⟩ := exists_fuel hn
    simp only [List.cons_append, List.append_assoc, List.length_cons, List.length_append] at hn
    have hform : Form.readForm n (t :: ts ++ (us ++ rest)) = .ok (f, us ++ rest) :=
      read_of_reads hf (us ++ rest) (by
        simp only [fuel, List.cons_append, List.length_cons, List.length_append]
        cases k <;> simp only [fuel] at hn
        · exact ht.elim
        all_goals omega)
    have hrest : k.read n (us ++ rest) = .error halt := ih (by
      rw [List.length_append]
      cases k <;> simp only [fuel] at hn ⊢ <;> omega)
    rw [List.append_assoc, List.cons_append, read_item ht]
    rw [List.cons_append] at hform
    simp only [hform, hrest]

/-! ### Every text follows the grammar or does not -/

/-- Tokens that start with a phrase, or that stop being one somewhere. -/
def IsSettled (k : Phrase) (ts : List Token) : Prop :=
  (∃ us rest a, ts = us ++ rest ∧ Reads k us a) ∨
    ∃ before rest halt, ts = before ++ rest ∧ Halts k before rest halt

/-- An item is settled if the form at its start is, with fewer tokens for what comes after.
-/
theorem isSettled_item (ht : k.StartsItem t) (hform : IsSettled .form (t :: ts))
    (hrest : ∀ us, us.length < (t :: ts).length → IsSettled k us) : IsSettled k (t :: ts) := by
  obtain ⟨us, rest, f, hsplit, hf⟩ | ⟨before, rest, halt, hsplit, h⟩ := hform
  · obtain ⟨u, us, rfl⟩ := List.exists_cons_of_ne_nil hf.ne_nil
    obtain ⟨rfl, rfl⟩ := List.cons.inj hsplit
    have hlt : rest.length < (t :: (us ++ rest)).length := by
      rw [List.length_cons, List.length_append]
      omega
    obtain ⟨us', rest', a, rfl, ha⟩ | ⟨before, rest', halt, rfl, h⟩ := hrest rest hlt
    · exact .inl ⟨t :: us ++ us', rest', k.cons f a, by simp, .item ht hf ha⟩
    · exact .inr ⟨t :: us ++ before, rest', halt.after f, by simp, .afterItem ht hf h⟩
  · exact .inr ⟨before, rest, halt, hsplit, .item ht (by rw [← hsplit]; rfl) h⟩

/-- The tokens of a text are a phrase up to some place, or stop being one. -/
theorem isSettled (k : Phrase) (ts : List Token) : IsSettled k ts := by
  -- an item has as many tokens as the list that it starts, so that tokens alone do not decrease
  induction hn : k.fuel ts.length using Nat.strong_induction_on generalizing k ts with
  | _ n ih =>
  subst hn
  cases ts with
  | nil => exact .inr ⟨[], [], _, rfl, .atEnd k⟩
  | cons t ts =>
    have hitem : k.StartsItem t → IsSettled k (t :: ts) := fun ht =>
      isSettled_item ht (ih _ (by cases k <;> simp only [fuel] <;> first | exact ht.elim | omega)
          .form (t :: ts) rfl) fun us hus =>
        ih _ (by cases k <;> simp only [fuel] <;> omega) k us rfl
    cases k with
    | list =>
      cases t with
      | closing => exact .inl ⟨[.closing], ts, _, rfl, .closing⟩
      | dot =>
        obtain ⟨us, rest, last, rfl, h⟩ | ⟨before, rest, halt, rfl, h⟩ :=
          ih _ (by simp only [fuel, List.length_cons]; omega) .form ts rfl
        · cases rest with
          | nil => exact .inr ⟨.dot :: us, [], _, rfl, .dottedEnd h⟩
          | cons u rest =>
            by_cases hu : u = .closing
            · subst hu
              exact .inl ⟨.dot :: (us ++ [.closing]), rest, _, by simp, .dotted h⟩
            · exact .inr ⟨.dot :: us, u :: rest, _, rfl, .dottedMore h hu rest⟩
        · exact .inr ⟨.dot :: before, rest, halt, rfl, .dotted h⟩
      | _ => exact hitem ⟨nofun, nofun⟩
    | vector =>
      cases t with
      | closingVector => exact .inl ⟨[.closingVector], ts, _, rfl, .closingVector⟩
      | _ => exact hitem nofun
    | form =>
      cases t with
      | atom c cs => exact .inl ⟨[.atom c cs], ts, _, rfl, .atom c cs⟩
      | dot => exact .inl ⟨[.dot], ts, _, rfl, .dot⟩
      | text s => exact .inl ⟨[.text s], ts, _, rfl, .text s⟩
      | closing => exact .inr ⟨[], .closing :: ts, _, rfl, .closing ts⟩
      | closingVector => exact .inr ⟨[], .closingVector :: ts, _, rfl, .closingVector ts⟩
      | bad e => exact .inr ⟨[], .bad e :: ts, _, rfl, .bad e ts⟩
      | quoteMark =>
        obtain ⟨us, rest, f, rfl, h⟩ | ⟨before, rest, halt, rfl, h⟩ :=
          ih _ (by simp only [fuel, List.length_cons]; omega) .form ts rfl
        · exact .inl ⟨.quoteMark :: us, rest, _, rfl, .quoted h⟩
        · exact .inr ⟨.quoteMark :: before, rest, halt, rfl, .quoted h⟩
      | opening =>
        obtain ⟨us, rest, a, rfl, h⟩ | ⟨before, rest, halt, rfl, h⟩ :=
          ih _ (by simp only [fuel, List.length_cons]; omega) .list ts rfl
        · exact .inl ⟨.opening :: us, rest, _, rfl, .list h⟩
        · exact .inr ⟨.opening :: before, rest, halt, rfl, .list h⟩
      | openingVector =>
        obtain ⟨us, rest, items, rfl, h⟩ | ⟨before, rest, halt, rfl, h⟩ :=
          ih _ (by simp only [fuel, List.length_cons]; omega) .vector ts rfl
        · exact .inl ⟨.openingVector :: us, rest, _, rfl, .vector h⟩
        · exact .inr ⟨.openingVector :: before, rest, halt, rfl, .vector h⟩

/-- Fuel that is enough never runs out: more of it gives the same. -/
theorem read_eq {m : Nat} (hn : k.fuel ts.length ≤ n) (hm : k.fuel ts.length ≤ m) :
    k.read n ts = k.read m ts := by
  obtain ⟨us, rest, a, rfl, h⟩ | ⟨before, rest, halt, rfl, h⟩ := k.isSettled ts
  · rw [read_of_reads h rest hn, read_of_reads h rest hm]
  · rw [read_of_halts h hn, read_of_halts h hm]

/-- What is left is no more than what was there. -/
theorem length_le_of_read (h : k.read n ts = .ok (a, rest)) (hn : k.fuel ts.length ≤ n) :
    rest.length ≤ ts.length := by
  obtain ⟨us, rest', a, rfl, ha⟩ | ⟨before, rest', halt, rfl, h'⟩ := k.isSettled ts
  · cases (read_of_reads ha rest' hn).symm.trans h
    rw [List.length_append]
    exact Nat.le_add_left _ _
  · cases (read_of_halts h' hn).symm.trans h

end Phrase

/-! ### Whole texts -/

namespace Form

variable {fs : List Form} {count : Nat}

/-- The tokens are forms one after the other. -/
inductive ReadAs : List Token → List Form → Prop where
  | nil : ReadAs [] []
  | cons {ts us : List Token} {f : Form} {fs : List Form} (hf : Phrase.Reads .form ts f)
    (hrest : ReadAs us fs) : ReadAs (ts ++ us) (f :: fs)

/-- The tokens are no forms: up to some place they could be, but not with what follows. -/
inductive HaltAt : (before rest : List Token) → Halt → Prop where
  | first {ts rest : List Token} {halt : Halt} (hne : ts ++ rest ≠ [])
    (h : Phrase.Halts .form ts rest halt) : HaltAt ts rest halt
  | after {ts us rest : List Token} {f : Form} {halt : Halt} (hf : Phrase.Reads .form ts f)
    (h : HaltAt us rest halt) : HaltAt (ts ++ us) rest (halt.after f)

/-- What was read has whole tokens. -/
theorem ReadAs.isWhole (h : ReadAs ts fs) : ∀ t ∈ ts, t.IsWhole := by
  induction h with
  | nil => exact List.forall_mem_nil _
  | cons hf _ ih => exact List.forall_mem_append.mpr ⟨hf.isWhole, ih⟩

/-- What was read may be put together. -/
theorem ReadAs.append {gs : List Form} (h : ReadAs ts fs) (h' : ReadAs us gs) :
    ReadAs (ts ++ us) (fs ++ gs) := by
  induction h with
  | nil => exact h'
  | cons hf _ ih =>
    rw [List.append_assoc]
    exact .cons hf ih

/-- Where tokens stop being forms, they also stop after other forms. -/
theorem HaltAt.append_left (h : ReadAs ts fs) (h' : HaltAt before rest halt) :
    HaltAt (ts ++ before) rest ⟨halt.error, namesIn fs ++ halt.named⟩ := by
  induction h with
  | nil => exact h'
  | cons hf _ ih =>
    rw [List.append_assoc, namesIn, List.append_assoc]
    exact .after hf ih

/-- Every text is forms one after the other, or stops being that somewhere. -/
theorem readAs_or_haltAt (ts : List Token) :
    (∃ fs, ReadAs ts fs) ∨ ∃ before rest halt, ts = before ++ rest ∧ HaltAt before rest halt := by
  induction hn : ts.length using Nat.strong_induction_on generalizing ts with
  | _ n ih =>
  subst hn
  by_cases hne : ts = []
  · subst hne
    exact .inl ⟨[], .nil⟩
  obtain ⟨us, rest, f, rfl, hf⟩ | ⟨before, rest, halt, rfl, h⟩ := Phrase.isSettled .form ts
  · have hlt : rest.length < (us ++ rest).length := by
      have := List.length_pos_iff.mpr hf.ne_nil
      rw [List.length_append]
      omega
    obtain ⟨fs, hrest⟩ | ⟨before, rest, halt, rfl, h⟩ := ih _ hlt rest rfl
    · exact .inl ⟨f :: fs, .cons hf hrest⟩
    · exact .inr ⟨us ++ before, rest, _, (List.append_assoc ..).symm, .after hf h⟩
  · exact .inr ⟨before, rest, halt, rfl, .first hne h⟩

/-! ### Fuel -/

/-- Reads forms with the fuel for each of them. -/
def readFormsWithin (fuel : Nat) : (count : Nat) → List Token → Except Halt (List Form)
  | 0, _ => .ok []
  | _ + 1, [] => .ok []
  | count + 1, token :: tokens => do
    let (f, rest) ← readForm fuel (token :: tokens)
    match readFormsWithin fuel count rest with
    | .error h => .error (h.after f)
    | .ok fs => .ok (f :: fs)

/-- Reads every form of a text with the fuel for every loop and every recursion. -/
def readAllWithin (fuel : Nat) (text : String) : Except Halt (List Form) :=
  readFormsWithin fuel fuel (Token.scanWithin fuel text.toList)

/-- Forms that were read are read again, with fuel for their tokens. -/
theorem readFormsWithin_of_readAs (h : ReadAs ts fs) (hn : 2 * ts.length ≤ n)
    (hcount : ts.length < count) : readFormsWithin n count ts = .ok fs := by
  induction h generalizing count with
  | nil =>
    obtain ⟨count, rfl⟩ := Nat.exists_eq_add_of_lt hcount
    rfl
  | @cons ts us f fs hf _ ih =>
    obtain ⟨t, ts, rfl⟩ := List.exists_cons_of_ne_nil hf.ne_nil
    obtain ⟨count, rfl⟩ : ∃ m, count = m + 1 := ⟨count - 1, by omega⟩
    have hform : readForm n (t :: ts ++ us) = .ok (f, us) := Phrase.read_of_reads hf us hn
    rw [List.cons_append] at hform ⊢
    rw [List.cons_append, List.length_cons, List.length_append] at hcount hn
    rw [readFormsWithin, hform]
    change (match readFormsWithin n count us with
      | .error h => .error (h.after f)
      | .ok fs => .ok (f :: fs) : Except Halt (List Form)) = _
    rw [ih (by omega) (by omega)]

/-- Forms up to where reading halts, with the same halt. -/
theorem readFormsWithin_of_haltAt (h : HaltAt before rest halt)
    (hn : 2 * (before ++ rest).length ≤ n) (hcount : (before ++ rest).length < count) :
    readFormsWithin n count (before ++ rest) = .error halt := by
  -- the halt is in the first form, or behind forms that are read
  induction h generalizing count with
  | @first ts rest halt hne h =>
    obtain ⟨count, rfl⟩ : ∃ m, count = m + 1 := ⟨count - 1, by omega⟩
    have hform : readForm n (ts ++ rest) = .error halt := Phrase.read_of_halts h hn
    obtain ⟨t, us, hus⟩ := List.exists_cons_of_ne_nil hne
    rw [hus] at hform ⊢
    rw [readFormsWithin, hform]
    rfl
  | @after ts us rest f halt hf _ ih =>
    obtain ⟨t, ts, rfl⟩ := List.exists_cons_of_ne_nil hf.ne_nil
    obtain ⟨count, rfl⟩ : ∃ m, count = m + 1 := ⟨count - 1, by omega⟩
    rw [List.append_assoc] at hn hcount ⊢
    have hform : readForm n (t :: ts ++ (us ++ rest)) = .ok (f, us ++ rest) :=
      Phrase.read_of_reads hf (us ++ rest) hn
    rw [List.cons_append] at hform ⊢
    rw [List.cons_append, List.length_cons, List.length_append] at hcount hn
    rw [readFormsWithin, hform]
    change (match readFormsWithin n count (us ++ rest) with
      | .error h => .error (h.after f)
      | .ok fs => .ok (f :: fs) : Except Halt (List Form)) = _
    rw [ih (by omega) (by omega)]

/-- The fuel that the reader takes for a form is enough. -/
theorem readForms_eq (hn : 2 * ts.length ≤ n) : readForms count ts = readFormsWithin n count ts := by
  -- the induction is on how many forms there may be
  induction count generalizing ts with
  | zero => rfl
  | succ count ih =>
    cases ts with
    | nil => rfl
    | cons t ts =>
      have hform : readForm (2 * ts.length + 3) (t :: ts) = readForm n (t :: ts) :=
        Phrase.read_eq (k := .form) (Nat.le_succ _) hn
      rw [readForms, readFormsWithin, hform]
      rcases hread : readForm n (t :: ts) with halt | ⟨f, rest⟩
      · rfl
      · have hrest : 2 * rest.length ≤ n := by
          have := Phrase.length_le_of_read (k := .form) hread hn
          omega
        change (match readForms count rest with
          | .error h => .error (h.after f)
          | .ok fs => .ok (f :: fs) : Except Halt (List Form)) = _
        rw [ih hrest]
        rfl

/-- Any fuel above twice the length of the text gives what the reader gives. -/
theorem readAllWithin_eq {text : String} (hn : 2 * text.toList.length < n) :
    readAllWithin n text = readAll text := by
  have hlength := Token.length_scanWithin_le (text.toList.length + 1) text.toList
  have hfuel : 2 * (Token.scan text.toList).length ≤ n := by
    rw [Token.scan]
    omega
  have hcount : (Token.scan text.toList).length < n := by
    rw [Token.scan]
    omega
  rw [readAllWithin, Token.scan_eq (by omega), readAll, readForms_eq hfuel]
  obtain ⟨fs, h⟩ | ⟨before, rest, halt, hsplit, h⟩ := readAs_or_haltAt (Token.scan text.toList)
  · rw [readFormsWithin_of_readAs h hfuel hcount,
      readFormsWithin_of_readAs h hfuel (Nat.lt_succ_self _)]
  · rw [hsplit] at hfuel hcount ⊢
    rw [readFormsWithin_of_haltAt h hfuel hcount,
      readFormsWithin_of_haltAt h hfuel (Nat.lt_succ_self _)]

/-- A text whose tokens are those of forms is read as these forms. -/
theorem readAll_of_readAs {text : String} (h : ReadAs (Token.scan text.toList) fs) :
    readAll text = .ok fs := by
  rw [readAll, readForms_eq (Nat.le_refl _)]
  exact readFormsWithin_of_readAs h (Nat.le_refl _) (Nat.lt_succ_self _)

/-- A text whose tokens halt is rejected as they are. -/
theorem readAll_of_haltAt {text : String} (hsplit : Token.scan text.toList = before ++ rest)
    (h : HaltAt before rest halt) : readAll text = .error halt := by
  rw [readAll, hsplit, readForms_eq (Nat.le_refl _)]
  exact readFormsWithin_of_haltAt h (Nat.le_refl _) (Nat.lt_succ_self _)

/-- What the reader accepts, and what it then gives. -/
theorem readAll_eq_ok_iff {text : String} :
    readAll text = .ok fs ↔ ReadAs (Token.scan text.toList) fs := by
  refine ⟨fun hread => ?_, readAll_of_readAs⟩
  obtain ⟨gs, h⟩ | ⟨before, rest, halt, hsplit, h⟩ := readAs_or_haltAt (Token.scan text.toList)
  · cases (readAll_of_readAs h).symm.trans hread
    exact h
  · cases (readAll_of_haltAt hsplit h).symm.trans hread

/-- What the reader does not accept, and how it then fails. -/
theorem readAll_eq_error_iff {text : String} : readAll text = .error halt ↔
    ∃ before rest, Token.scan text.toList = before ++ rest ∧ HaltAt before rest halt := by
  refine ⟨fun hread => ?_, fun ⟨before, rest, hsplit, h⟩ => readAll_of_haltAt hsplit h⟩
  obtain ⟨gs, h⟩ | ⟨before, rest, halt, hsplit, h⟩ := readAs_or_haltAt (Token.scan text.toList)
  · cases (readAll_of_readAs h).symm.trans hread
  · cases (readAll_of_haltAt hsplit h).symm.trans hread
    exact ⟨before, rest, hsplit, h⟩

end Form

end Crossing
