import Crossing.Proofs.FormTexts

/-!
# Texts that go on

The tokens of a text are settled up to its last lexeme, whatever follows. A word at the end may
become longer, a string may come to its end, and nothing else can change.

- `Token.IsOpen`: what a text may end in that is not settled;
- `Token.exists_open`: the settled tokens of a text, and the lexeme that it ends in;
- `Token.Continues`: the tokens of a text and those of a longer one, `Token.continues_scan`;
- `Token.scan_line`: a line end settles a text;
- `Token.mend`, `Token.exists_scan_mend`: a text goes on so that its last string comes to its end.
-/

namespace Crossing

namespace Token

variable {c : Char} {cs ds rest : List Char} {s : List Char} {t t' : Token} {ts us : List Token}

/-! ### Steps of the scan -/

/-- A blank is no token. -/
theorem scan_of_isBlank (hc : isBlank c = true) (cs : List Char) : scan (c :: cs) = scan cs := by
  rw [scan, scanWithin, if_pos hc]
  exact scan_eq (Nat.lt_succ_self _)

/-- A comment is no token. -/
theorem scan_comment (cs : List Char) : scan (';' :: cs) = scan (skipComment cs) :=
  scan_eq (Nat.lt_succ_of_le (length_skipComment_le cs))

/-- A string is a token with its text. -/
theorem scan_string (h : scanString cs = .ok (s, rest)) :
    scan ('"' :: cs) = .text (String.ofList s) :: scan rest := by
  have hlt := length_lt_of_scanString h
  have hscan : scan ('"' :: cs) = .text (String.ofList s) :: scanWithin (cs.length + 1) rest := by
    rw [scan, scanWithin]
    simp only [h]
    rfl
  rw [hscan, scan_eq]
  exact Nat.lt_succ_of_lt hlt

/-- A bad string is the last token. -/
theorem scan_badString {e : ReadError} (h : scanString cs = .error e) :
    scan ('"' :: cs) = [.bad e] := by
  rw [scan, scanWithin]
  simp only [h]
  rfl

/-- A dot that stands alone is a token of its own. -/
theorem scan_dot_of_standsAlone (h : standsAlone cs = true) :
    scan ('.' :: cs) = .dot :: scan cs := by
  rw [scan, scanWithin]
  simp only [h, and_self, if_true]
  rfl

/-- Every token takes a character. -/
theorem length_scanWithin_le (n : Nat) (cs : List Char) :
    (scanWithin n cs).length ≤ cs.length := by
  -- the induction is on the fuel; each token takes at least one character
  induction n generalizing cs with
  | zero => exact Nat.zero_le _
  | succ n ih =>
    cases cs with
    | nil => exact Nat.zero_le _
    | cons c cs =>
      have hskip : ∀ ds : List Char, ds.length ≤ cs.length →
          (scanWithin n ds).length ≤ cs.length + 1 :=
        fun ds hds => (ih ds).trans (Nat.le_succ_of_le hds)
      have htake : ∀ (t : Token) (ds : List Char), ds.length ≤ cs.length →
          (t :: scanWithin n ds).length ≤ cs.length + 1 :=
        fun t ds hds => Nat.succ_le_succ ((ih ds).trans hds)
      have hword : (cs.dropWhile fun d => !isDelimiter d).length ≤ cs.length :=
        (List.dropWhile_sublist _).length_le
      rw [scanWithin, List.length_cons]
      -- the cases are the characters that a token can start with
      split_ifs
      · exact hskip cs (Nat.le_refl _)
      · exact hskip _ (length_skipComment_le cs)
      iterate 5 exact htake _ cs (Nat.le_refl _)
      · cases hstring : scanString cs with
        | error e => exact Nat.succ_le_succ (Nat.zero_le _)
        | ok part => exact htake _ part.2 (Nat.le_of_lt (length_lt_of_scanString hstring))
      · exact htake _ cs (Nat.le_refl _)
      · exact htake _ _ hword

/-- The token that a character is by itself. -/
def mark? (c : Char) : Option Token :=
  if c = '(' then some .opening
  else if c = ')' then some .closing
  else if c = '[' then some .openingVector
  else if c = ']' then some .closingVector
  else if c = '\'' then some .quoteMark
  else none

/-- A mark is a token of its own. -/
theorem scan_mark (h : mark? c = some t) (cs : List Char) : scan (c :: cs) = t :: scan cs := by
  unfold mark? at h
  split_ifs at h with h₁ h₂ h₃ h₄ h₅ <;> cases h
  · exact h₁ ▸ rfl
  · exact h₂ ▸ rfl
  · exact h₃ ▸ rfl
  · exact h₄ ▸ rfl
  · exact h₅ ▸ rfl

/-- What the first character of a lexeme can be. -/
theorem firstChar_cases (c : Char) : isBlank c = true ∨ c = ';' ∨ (∃ t, mark? c = some t) ∨
    c = '"' ∨ isDelimiter c = false := by
  by_cases hc : isDelimiter c = true
  · simp only [isDelimiter, Bool.or_eq_true, beq_iff_eq] at hc
    obtain (((((((h | rfl) | rfl) | rfl) | rfl) | rfl) | rfl) | rfl) := hc
    · exact .inl h
    all_goals simp [mark?]
  · exact .inr (.inr (.inr (.inr (Bool.eq_false_iff.mpr hc))))

/-! ### Strings -/

/-- A string that has been read to its end stays as it is. -/
theorem scanString_append (h : scanString cs = .ok (s, rest)) (ds : List Char) :
    scanString (cs ++ ds) = .ok (s, rest ++ ds) := by
  fun_induction scanString cs generalizing s rest with
  | case1 | case3 | case5 | case7 | case9 => cases h
  | case2 =>
    cases h
    exact scanString_quote ds
  | case4 d cs =>
    cases h
    exact scanString_quote _
  | case6 d cs e hd s rest hrest _ ih =>
    cases h
    exact scanString_escape hd (ih hrest)
  | case8 c d cs hquote hescape s rest hrest ih =>
    cases h
    exact scanString_char hquote hescape (ih hrest)

/-- An escape that the reader does not know stays where it is. -/
theorem scanString_badEscape (h : scanString cs = .error (.badEscape c)) (ds : List Char) :
    scanString (cs ++ ds) = .error (.badEscape c) := by
  -- the induction is that of the reader of strings
  fun_induction scanString cs with
  | case1 | case2 | case3 | case4 | case6 | case8 => cases h
  | case5 d cs hd _ =>
    cases h
    rw [List.cons_append, List.cons_append, scanString, if_neg (by decide), if_pos rfl]
    simp only [hd]
  | case7 d cs e hd e' hrest _ ih =>
    cases h
    rw [List.cons_append, List.cons_append, scanString, if_neg (by decide), if_pos rfl]
    simp only [hd, ih hrest]
  | case9 c' d cs hquote hescape e' hrest ih =>
    cases h
    have hrest' := ih hrest
    rw [List.cons_append] at hrest'
    rw [List.cons_append, List.cons_append, scanString, if_neg hquote, if_neg hescape]
    simp only [hrest']

/-- A string that has not come to its end can still do so. -/
theorem exists_scanString_append {e : ReadError} (h : scanString cs = .error e)
    (he : ∀ c, e ≠ .badEscape c) :
    e = .unfinished .string ∧ ∃ ds s, scanString (cs ++ ds) = .ok (s, []) := by
  fun_induction scanString cs with
  | case2 | case4 | case6 | case8 => cases h
  | case1 =>
    cases h
    exact ⟨rfl, ['"'], [], rfl⟩
  | case3 c hquote =>
    cases h
    -- after a backslash a quote would still belong to the string
    by_cases hescape : c = '\\'
    · subst hescape
      exact ⟨rfl, ['n', '"'], ['\n'], rfl⟩
    · exact ⟨rfl, ['"'], [c], scanString_char hquote hescape rfl⟩
  | case5 d cs hd _ =>
    cases h
    exact absurd rfl (he d)
  | case7 d cs e hd e' hrest _ ih =>
    cases h
    obtain ⟨rfl, ds, s, hds⟩ := ih hrest
    exact ⟨rfl, ds, e :: s, scanString_escape hd hds⟩
  | case9 c d cs hquote hescape e' hrest ih =>
    cases h
    obtain ⟨rfl, ds, s, hds⟩ := ih hrest
    exact ⟨rfl, ds, c :: s, scanString_char hquote hescape hds⟩

/-! ### Open lexemes -/

/-- What is settled whatever follows: every token but one for a string that cannot be read. -/
def IsWhole (t : Token) : Prop := ∀ e, t ≠ .bad e

/-- What a text may end in that can still change: nothing, a comment, a word, or a string that
cannot be read. -/
inductive IsOpen : List Char → Prop where
  | nil : IsOpen []
  | comment {cs : List Char} (h : '\n' ∉ cs) : IsOpen (';' :: cs)
  | word {c : Char} {cs : List Char} (h : ∀ d ∈ c :: cs, isDelimiter d = false) :
    IsOpen (c :: cs)
  | string {cs : List Char} {e : ReadError} (h : scanString cs = .error e) : IsOpen ('"' :: cs)

/-- A comment without a line break runs to the end of the text. -/
theorem skipComment_of_notMem (h : '\n' ∉ cs) : skipComment cs = [] := by
  have hdrop : cs.dropWhile (· ≠ '\n') = [] :=
    List.dropWhile_eq_nil_iff.mpr fun d hd => decide_eq_true fun heq => h (heq ▸ hd)
  rw [skipComment, hdrop]
  rfl

/-- A comment goes up to a line end. -/
theorem skipComment_line (h : '\n' ∉ cs) (ds : List Char) : skipComment (cs ++ '\n' :: ds) = ds := by
  have hall : ∀ d ∈ cs, (decide (d ≠ '\n')) = true := fun d hd => decide_eq_true fun heq => h (heq ▸ hd)
  rw [skipComment, List.dropWhile_append_of_pos hall]
  simp

/-- Whether a dot stands alone shows in the next character. -/
theorem standsAlone_append (hcs : cs ≠ []) (ds : List Char) :
    standsAlone (cs ++ ds) = standsAlone cs := by
  cases cs with
  | nil => exact absurd rfl hcs
  | cons c cs => rfl

/-- What is left behind a word ends an atom. -/
theorem endsAtom_dropWhile (cs : List Char) : EndsAtom (cs.dropWhile fun d => !isDelimiter d) := by
  intro d hd
  have h := List.head?_dropWhile_not (fun d => !isDelimiter d) cs
  rw [Option.mem_def.mp hd] at h
  simpa using h

/-- What ends an atom does so whatever follows. -/
theorem EndsAtom.append (h : EndsAtom cs) (hcs : cs ≠ []) (ds : List Char) :
    EndsAtom (cs ++ ds) := by
  cases cs with
  | nil => exact absurd rfl hcs
  | cons c cs => exact h

/-- The settled tokens of a text, and the lexeme that it ends in. -/
theorem exists_open (cs : List Char) : ∃ before last, IsOpen last ∧ (∀ t ∈ before, IsWhole t) ∧
    ∀ ds, scan (cs ++ ds) = before ++ scan (last ++ ds) := by
  -- every lexeme takes a character, and what is left after it is shorter
  induction hn : cs.length using Nat.strong_induction_on generalizing cs with
  | _ n ih =>
  subst hn
  cases cs with
  | nil => exact ⟨[], [], .nil, List.forall_mem_nil _, fun _ => rfl⟩
  | cons c cs =>
    have hskip : ∀ rest : List Char, rest.length ≤ cs.length →
        (∀ ds, scan (c :: cs ++ ds) = scan (rest ++ ds)) →
        ∃ before last, IsOpen last ∧ (∀ t ∈ before, IsWhole t) ∧
          ∀ ds, scan (c :: cs ++ ds) = before ++ scan (last ++ ds) := by
      intro rest hrest hscan
      obtain ⟨before, last, hopen, hwhole, h⟩ := ih _ (Nat.lt_succ_of_le hrest) rest rfl
      exact ⟨before, last, hopen, hwhole, fun ds => (hscan ds).trans (h ds)⟩
    have htake : ∀ (t : Token) (rest : List Char), IsWhole t → rest.length ≤ cs.length →
        (∀ ds, scan (c :: cs ++ ds) = t :: scan (rest ++ ds)) →
        ∃ before last, IsOpen last ∧ (∀ t ∈ before, IsWhole t) ∧
          ∀ ds, scan (c :: cs ++ ds) = before ++ scan (last ++ ds) := by
      intro t rest ht hrest hscan
      obtain ⟨before, last, hopen, hwhole, h⟩ := ih _ (Nat.lt_succ_of_le hrest) rest rfl
      exact ⟨t :: before, last, hopen, List.forall_mem_cons.mpr ⟨ht, hwhole⟩,
        fun ds => (hscan ds).trans (congrArg (t :: ·) (h ds))⟩
    rcases firstChar_cases c with hblank | rfl | ⟨t, ht⟩ | rfl | hword
    · exact hskip cs (Nat.le_refl _) fun ds => scan_of_isBlank hblank _
    · by_cases hline : '\n' ∈ cs
      · obtain ⟨as, bs, rfl, has⟩ := List.eq_append_cons_of_mem hline
        refine hskip bs (by rw [List.length_append, List.length_cons]; omega) fun ds => ?_
        rw [List.cons_append, List.append_assoc, List.cons_append, scan_comment,
          skipComment_line has]
      · exact ⟨[], _, .comment hline, List.forall_mem_nil _, fun _ => rfl⟩
    · refine htake t cs ?_ (Nat.le_refl _) fun ds => scan_mark ht _
      unfold mark? at ht
      split_ifs at ht <;> cases ht <;> exact nofun
    · cases hstring : scanString cs with
      | error e => exact ⟨[], _, .string hstring, List.forall_mem_nil _, fun _ => rfl⟩
      | ok part =>
        exact htake (.text (String.ofList part.1)) part.2 nofun
          (Nat.le_of_lt (length_lt_of_scanString hstring))
          fun ds => scan_string (scanString_append hstring ds)
    · by_cases hrest : cs.dropWhile (fun d => !isDelimiter d) = []
      · -- the text ends in a word
        refine ⟨[], _, .word fun d hd => ?_, List.forall_mem_nil _, fun _ => rfl⟩
        rcases List.mem_cons.mp hd with rfl | hd
        · exact hword
        · simpa using List.dropWhile_eq_nil_iff.mp hrest d hd
      · have hcs : cs ≠ [] := by
          rintro rfl
          exact hrest rfl
        by_cases halone : c = '.' ∧ standsAlone cs = true
        · obtain ⟨rfl, halone⟩ := halone
          exact htake .dot cs nofun (Nat.le_refl _) fun ds =>
            scan_dot_of_standsAlone ((standsAlone_append hcs ds).trans halone)
        · have hle : (cs.dropWhile fun d => !isDelimiter d).length ≤ cs.length :=
            (List.dropWhile_sublist _).length_le
          refine htake (.atom c (cs.takeWhile fun d => !isDelimiter d)) _ nofun hle fun ds => ?_
          have hsplit := List.takeWhile_append_dropWhile (p := fun d => !isDelimiter d) (l := cs)
          have htext : c :: cs ++ ds = c :: cs.takeWhile (fun d => !isDelimiter d) ++
              (cs.dropWhile (fun d => !isDelimiter d) ++ ds) := by
            rw [List.cons_append, List.cons_append, ← List.append_assoc, hsplit]
          rw [htext]
          refine scan_word (fun d hd => ?_) ?_ ((endsAtom_dropWhile cs).append hrest ds)
          · rcases List.mem_cons.mp hd with rfl | hd
            · exact hword
            · simpa using List.mem_takeWhile_imp hd
          · rwa [← List.append_assoc, hsplit, standsAlone_append hcs]

/-! ### Tokens of texts that go on -/

/-- What the last token of a text may become when the text goes on: a longer word, a string that
comes to its end, or one with an escape that the reader does not know. -/
inductive GrowsInto : Token → Token → Prop where
  | refl (t : Token) : GrowsInto t t
  | word (c : Char) (cs ds : List Char) : GrowsInto (.atom c cs) (.atom c ds)
  | dot (cs : List Char) : GrowsInto .dot (.atom '.' cs)
  | text (u : Unfinished) (s : String) : GrowsInto (.bad (.unfinished u)) (.text s)
  | bad (u : Unfinished) (e : ReadError) : GrowsInto (.bad (.unfinished u)) (.bad e)

/-- A token that grows keeps its first character. -/
theorem GrowsInto.firstChar_eq (h : GrowsInto t t') : t'.firstChar = t.firstChar := by
  cases h <;> rfl

/-- A token never becomes a parenthesis. -/
theorem GrowsInto.ne_closing (h : GrowsInto t t') (ht : t ≠ .closing) : t' ≠ .closing := by
  cases h with
  | refl => exact ht
  | _ => exact nofun

/-- The tokens of a text and those of a longer one: the last token of the shorter one may have
become another one. -/
inductive Continues : List Token → List Token → Prop where
  | nil (us : List Token) : Continues [] us
  | last {t t' : Token} (ht : GrowsInto t t') (us : List Token) : Continues [t] (t' :: us)
  | cons (t : Token) {ts us : List Token} (h : Continues ts us) : Continues (t :: ts) (t :: us)

/-- What continues tokens does so behind others. -/
theorem Continues.append_left (before : List Token) (h : Continues ts us) :
    Continues (before ++ ts) (before ++ us) := by
  induction before with
  | nil => exact h
  | cons t before ih => exact .cons t ih

/-- Up to any token nothing has changed. -/
theorem Continues.exists_of_append {before : List Token} (h : Continues (before ++ t :: ts) us) :
    ∃ t' vs, us = before ++ t' :: vs ∧ GrowsInto t t' := by
  induction before generalizing us with
  | nil =>
    cases h with
    | last ht us => exact ⟨_, us, rfl, ht⟩
    | cons _ h => exact ⟨t, _, rfl, .refl t⟩
  | cons s before ih =>
    rw [List.cons_append] at h
    generalize hrest : before ++ t :: ts = rest at h
    cases h with
    | last => simp at hrest
    | cons _ h =>
      obtain ⟨t', vs, rfl, ht⟩ := ih (hrest ▸ h)
      exact ⟨t', vs, rfl, ht⟩

/-- A word and what follows it: a longer word, or a dot that still stands alone. -/
theorem continues_scan_word (h : ∀ d ∈ c :: cs, isDelimiter d = false) (ds : List Char) :
    Continues (scan (c :: cs)) (scan (c :: cs ++ ds)) := by
  -- the word goes on into what follows, up to where that delimits
  have hlonger : ∀ d ∈ c :: (cs ++ ds.takeWhile fun d => !isDelimiter d), isDelimiter d = false := by
    intro d hd
    rw [← List.cons_append] at hd
    rcases List.mem_append.mp hd with hd | hd
    · exact h d hd
    · simpa using List.mem_takeWhile_imp hd
  have htext : c :: cs ++ ds = c :: (cs ++ ds.takeWhile fun d => !isDelimiter d) ++
      ds.dropWhile fun d => !isDelimiter d := by
    simp [List.append_assoc]
  have hscan : ¬(c = '.' ∧ standsAlone (cs ++ []) = true) → scan (c :: cs) = [.atom c cs] := by
    intro halone
    have hscan := scan_word h halone endsAtom_nil
    rwa [List.append_nil, show scan [] = [] from rfl] at hscan
  -- a dot that stood alone at the end of the text may be the start of a word
  by_cases halone : c = '.' ∧ standsAlone (cs ++ ds) = true
  · obtain ⟨rfl, halone⟩ := halone
    obtain rfl : cs = [] := by
      by_contra hcs
      refine absurd ⟨rfl, halone⟩ (not_standsAlone h ?_)
      simpa using hcs
    rw [List.cons_append, scan_dot_of_standsAlone halone]
    exact .last (.refl .dot) _
  · rw [htext, scan_word hlonger (by simpa using halone) (endsAtom_dropWhile ds)]
    by_cases hdot : c :: cs = ['.']
    · obtain ⟨rfl, rfl⟩ := List.cons.inj hdot
      exact .last (.dot _) _
    · rw [hscan (not_standsAlone h hdot)]
      exact .last (.word c cs _) _

/-- When a text goes on, only its last token can change. -/
theorem continues_scan (cs ds : List Char) : Continues (scan cs) (scan (cs ++ ds)) := by
  obtain ⟨before, last, hopen, -, h⟩ := exists_open cs
  have hscan := h []
  rw [List.append_nil, List.append_nil] at hscan
  rw [hscan, h ds]
  refine .append_left before ?_
  cases hopen with
  | nil => exact .nil _
  | comment hline =>
    rw [scan_comment, skipComment_of_notMem hline]
    exact .nil _
  | word hword => exact continues_scan_word hword ds
  | @string cs e hstring =>
    rw [scan_badString hstring, List.cons_append]
    -- a string without an end may be ended by what follows, and a bad escape stays bad
    cases e with
    | badEscape c =>
      rw [scan_badString (scanString_badEscape hstring ds)]
      exact .last (.refl _) _
    | unexpected c => exact absurd (exists_scanString_append hstring nofun).1 nofun
    | unfinished u =>
      cases hlonger : scanString (cs ++ ds) with
      | ok part =>
        rw [scan_string hlonger]
        exact .last (.text u _) _
      | error e =>
        rw [scan_badString hlonger]
        exact .last (.bad u e) _

/-! ### Line ends -/

/-- A line end settles a text all of whose strings can be read. -/
theorem scan_line (hwhole : ∀ t ∈ scan cs, IsWhole t) (ds : List Char) :
    scan (cs ++ '\n' :: ds) = scan cs ++ scan ds := by
  obtain ⟨before, last, hopen, -, h⟩ := exists_open cs
  have hscan := h []
  rw [List.append_nil, List.append_nil] at hscan
  have hline : scan ('\n' :: ds) = scan ds := scan_of_isBlank rfl ds
  rw [hscan] at hwhole ⊢
  rw [h, List.append_assoc]
  congr 1
  cases hopen with
  | nil => exact hline
  | comment hcomment =>
    rw [scan_comment, skipComment_of_notMem hcomment, List.cons_append, scan_comment,
      skipComment_line hcomment]
    rfl
  | @word c cs hword =>
    have hend : EndsAtom ('\n' :: ds) := endsAtom_cons rfl ds
    -- a single dot is a token of its own, whether the text ends there or the line
    by_cases hdot : c :: cs = ['.']
    · obtain ⟨rfl, rfl⟩ := List.cons.inj hdot
      exact (scan_dot_of_standsAlone rfl).trans (congrArg (Token.dot :: ·) hline)
    · have hself := scan_atom hword hdot endsAtom_nil
      rw [List.append_nil] at hself
      rw [scan_atom hword hdot hend, hself, hline]
      rfl
  | string hstring =>
    rw [scan_badString hstring] at hwhole
    exact absurd rfl (hwhole _ (List.mem_append_right before (List.mem_singleton_self _)) _)

/-! ### Strings that come to their end -/

/-- The tokens of a text whose string at the end, if there is one, reads as `s`. -/
def mend (s : String) : List Token → List Token
  | [] => []
  | .bad (.unfinished _) :: _ => [.text s]
  | t :: ts => t :: mend s ts

/-- Whole tokens in front are left as they are. -/
theorem mend_cons (s : String) (ht : IsWhole t) (ts : List Token) :
    mend s (t :: ts) = t :: mend s ts := by
  cases t with
  | bad e => exact absurd rfl (ht e)
  | _ => rfl

/-- Whole tokens in front are left as they are, any number of them. -/
theorem mend_append (s : String) (h : ∀ t ∈ ts, IsWhole t) (us : List Token) :
    mend s (ts ++ us) = ts ++ mend s us := by
  induction ts with
  | nil => rfl
  | cons t ts ih =>
    obtain ⟨ht, hts⟩ := List.forall_mem_cons.mp h
    rw [List.cons_append, mend_cons s ht, ih hts, List.cons_append]

theorem mend_eq_self (s : String) (h : ∀ t ∈ ts, IsWhole t) : mend s ts = ts := by
  have hmend := mend_append s h []
  rwa [List.append_nil, show mend s [] = [] from rfl, List.append_nil] at hmend

/-- A text goes on so that its last string comes to its end, and nothing else comes of it. -/
theorem exists_scan_mend (cs : List Char) : ∃ ds s, scan (cs ++ ds) = mend s (scan cs) := by
  obtain ⟨before, last, hopen, hwhole, h⟩ := exists_open cs
  have hscan := h []
  rw [List.append_nil, List.append_nil] at hscan
  have hsame : (∀ t ∈ scan last, IsWhole t) → ∃ ds s, scan (cs ++ ds) = mend s (scan cs) := by
    intro hlast
    refine ⟨[], "", ?_⟩
    rw [List.append_nil, hscan, mend_append _ hwhole, mend_eq_self _ hlast]
  cases hopen with
  | nil => exact hsame (List.forall_mem_nil _)
  | comment hcomment =>
    rw [scan_comment, skipComment_of_notMem hcomment] at hsame
    exact hsame (List.forall_mem_nil _)
  | @word c cs hword =>
    refine hsame fun t ht => ?_
    -- a single dot at the end needs something behind it
    by_cases hdot : c :: cs = ['.']
    · rw [hdot] at ht
      obtain rfl := List.mem_singleton.mp ht
      exact nofun
    · have hself := scan_atom hword hdot endsAtom_nil
      rw [List.append_nil] at hself
      rw [hself] at ht
      obtain rfl := List.mem_singleton.mp ht
      exact nofun
  | @string cs' e hstring =>
    have hmend : ∀ s, mend s (scan cs) = before ++ mend s [.bad e] := fun s => by
      rw [hscan, mend_append s hwhole, scan_badString hstring]
    cases e with
    | badEscape c =>
      refine ⟨[], "", ?_⟩
      rw [List.append_nil, hmend, hscan, scan_badString hstring]
      rfl
    | unexpected c => exact absurd (exists_scanString_append hstring nofun).1 nofun
    | unfinished u =>
      obtain ⟨-, ds, s, hds⟩ := exists_scanString_append hstring nofun
      refine ⟨ds, String.ofList s, ?_⟩
      rw [h, hmend, List.cons_append, scan_string hds]
      rfl

end Token

end Crossing
