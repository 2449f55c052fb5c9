import Crossing.Proofs.TwoRuns.Exchange

/-!
# Forms and the host's calls in two runs

What script code builds out of symbols and values and has the host evaluate is
alike in two runs, and so is what the host does with it, calls of registered
functions and sweeps included.

- `closure_alike`, `define_alike`, `bindVariables_alike` and the like, for each
  way to make and evaluate a form;
- `application_alike`: the host applies a function to the same effect.
-/

namespace Crossing

variable {L : License} {P : Pairing L} {v v' : Value} {vs vs' : List Value}
  {fs fs' : List (String × Value)} {us us' : List (Value × Value)}

namespace Border

open Proc

theorem fields_of_suffix {P' : Pairing L} (hP : P.held <:+ P'.held)
    (hfs : List.Forall₂ (FieldAlike P.Held) fs fs') :
    List.Forall₂ (FieldAlike P'.Held) fs fs' :=
  hfs.imp fun _ _ hf => ⟨hf.1, Pairing.alike_of_suffix hP hf.2⟩

/-- Pairs of values that are alike. -/
def PairAlike (R : Handle → Handle → Prop) (u u' : Value × Value) : Prop :=
  u.1.Alike R u'.1 ∧ u.2.Alike R u'.2

theorem pairs_of_suffix {P' : Pairing L} (hP : P.held <:+ P'.held)
    (hus : List.Forall₂ (PairAlike P.Held) us us') :
    List.Forall₂ (PairAlike P'.Held) us us' :=
  hus.imp fun _ _ hu =>
    ⟨Pairing.alike_of_suffix hP hu.1, Pairing.alike_of_suffix hP hu.2⟩

/-! ### Parts of forms -/

/-- A form with a head and arguments is made in step. -/
theorem formOf_alike (head : String) (hvs : List.Forall₂ (Value.Alike P.Held) vs vs') :
    (formOf head vs).Alike P (formOf head vs') fun P' => Value.Alike P'.Held :=
  .keeping_value ((symbol_alike head).bind fun _ _ _ hP hh =>
    list_alike (.cons (Value.alike_handle hh) (Pairing.forall₂_of_suffix hP hvs)))

theorem quote_alike (hv : v.Alike P.Held v') :
    (quote v).Alike P (quote v') fun P' => Value.Alike P'.Held :=
  formOf_alike "quote" (.cons hv .nil)

theorem quoteFunction_alike (c : Callable) :
    (quote (.function c)).Alike P (quote (.function c)) fun P' => Value.Alike P'.Held :=
  quote_alike (Value.alike_of_handles_eq_nil rfl)

theorem isPair_alike (hv : v.Alike P.Held v') :
    (isPair v).Alike P (isPair v') fun _ => Eq := by
  have hpart : (do let answer ← call "consp" [v]; pure answer.isTruthy : Proc Bool).Alike P
      (do let answer ← call "consp" [v']; pure answer.isTruthy) fun _ => Eq :=
    (call_alike "consp" (.cons hv .nil)).bind fun _ _ _ _ hu => .pure hu.isTruthy_eq.symm
  exact hpart.held fun _ _ _ _ _ h => h

theorem isQuoted_alike (hv : v.Alike P.Held v') :
    (isQuoted v).Alike P (isQuoted v') fun _ => Eq := by
  have hpart : (do
      let head ← call "car" [v]
      let h ← symbol "quote"
      pure (head.same (.handle h)) : Proc Bool).Alike P (do
      let head ← call "car" [v']
      let h ← symbol "quote"
      pure (head.same (.handle h))) fun _ => Eq := by
    refine (call_alike "car" (.cons hv .nil)).bind fun P₁ u u' _ hu => ?_
    refine (symbol_alike "quote").bind fun P₂ h h' hP₂ hh => .pure ?_
    exact (Value.Alike.same_eq Pairing.held_inj (Pairing.alike_of_suffix hP₂ hu)
      (Value.alike_handle hh)).symm
  exact hpart.held fun _ _ _ _ _ h => h

/-- Script code quotes the same values in both runs. -/
theorem quoteIfList_alike (hv : v.Alike P.Held v') :
    (quoteIfList v).Alike P (quoteIfList v') fun P' => Value.Alike P'.Held := by
  cases v with
  | handle h =>
    obtain ⟨h', rfl, hh⟩ := hv
    have hv := Value.alike_handle hh
    refine (isPair_alike hv).bind ?_
    rintro P₁ b _ hP₁ rfl
    -- both runs see the same shape, and so they quote or do not
    split
    · refine (isQuoted_alike (Pairing.alike_of_suffix hP₁ hv)).bind ?_
      rintro P₂ b _ hP₂ rfl
      split
      · exact .pure (Pairing.alike_of_suffix (hP₁.trans hP₂) hv)
      · exact quote_alike (Pairing.alike_of_suffix (hP₁.trans hP₂) hv)
    · exact .pure (Pairing.alike_of_suffix hP₁ hv)
  | object fs =>
    obtain ⟨fs', rfl, hfs⟩ := hv
    -- an object without fields is the empty list, which needs no quoting
    cases fs with
    | nil =>
      obtain rfl := hfs
      exact .pure ⟨[], rfl, rfl⟩
    | cons f fs =>
      obtain ⟨u', gs', rfl, hu, hgs⟩ := hfs
      exact quote_alike ⟨_, rfl, u', gs', rfl, hu, hgs⟩
  | list vs =>
    obtain ⟨vs', rfl, hvs⟩ := hv
    exact .pure ⟨vs', rfl, hvs⟩
  | null | bool b | int i | float x | text s | function c | native n =>
    obtain rfl := hv
    exact .pure rfl

/-- Values are quoted where they need it in step, one after the other. -/
theorem quoteAll_alike (hvs : List.Forall₂ (Value.Alike P.Held) vs vs') :
    (vs.mapM quoteIfList).Alike P (vs'.mapM quoteIfList) fun P' =>
      List.Forall₂ (Value.Alike P'.Held) :=
  .mapM_held (E := fun P => Value.Alike P.Held) (Q := fun P => Value.Alike P.Held)
    (fun _ _ _ _ hP hv => Pairing.alike_of_suffix hP hv)
    (fun _ _ _ _ hP hv => Pairing.alike_of_suffix hP hv)
    (fun _ _ _ hv => quoteIfList_alike hv) hvs

/-! ### Script functions as host functions -/

theorem register_alike (c : Callable) :
    (register c).Alike P (register c) fun _ => Eq := by
  refine (Alike.change (.shared rfl)).bind ?_
  rintro _ key _ - ⟨-, rfl⟩
  split
  · exact .pure rfl
  · exact .fail _

theorem callingForm_alike (c : Callable) :
    (callingForm c).Alike P (callingForm c) fun P' => PairAlike P'.Held := by
  refine .keeping_pair ((register_alike c).bind ?_)
  rintro P₁ key _ - rfl
  refine (symbol_alike argumentsName).bind fun P₂ h h' _ hh => ?_
  have hv := Value.alike_handle hh
  refine (formOf_alike "&rest" (.cons hv .nil)).bind fun P₃ u u' hP₃ hu => ?_
  have hargs : List.Forall₂ (Value.Alike P₃.Held)
      [.int (.ofNat key.index), .int (.ofNat key.generation), .handle h]
      [.int (.ofNat key.index), .int (.ofNat key.generation), .handle h'] :=
    .cons rfl (.cons rfl (.cons (Pairing.alike_of_suffix hP₃ hv) .nil))
  refine (formOf_alike reenterName hargs).bind fun P₄ w w' hP₄ hw => ?_
  exact .pure ⟨Pairing.alike_of_suffix hP₄ hu, hw⟩

/-- The closures that call a script function correspond. -/
theorem closure_alike (c : Callable) : (closure c).Alike P (closure c) fun P' => P'.Held := by
  refine .keeping_handle ((Alike.keeping_value ((callingForm_alike c).bind
    fun P₁ u u' _ hu => formOf_alike "lambda" (.cons hu.1 (.cons hu.2 .nil)))).bind
    fun P₂ form form' _ hform => ?_)
  refine (evaluate_alike hform).bind fun P₃ v v' _ hv => ?_
  -- what comes back is a handle, or the host did not make a closure
  cases v with
  | handle h =>
    obtain ⟨h', rfl, hh⟩ := hv
    exact .pure hh
  | list vs =>
    obtain ⟨vs', rfl, -⟩ := hv
    exact .fail _
  | object fs =>
    obtain ⟨fs', rfl, -⟩ := hv
    exact .fail _
  | _ =>
    obtain rfl := hv
    exact .fail _

/-- What makes a function a command is made in step. -/
theorem commandForm_alike (command : Command) :
    (commandForm command).Alike P (commandForm command) fun P' => Value.Alike P'.Held := by
  cases command with
  | plain => exact formOf_alike _ .nil
  | spec s => exact formOf_alike _ (.cons rfl .nil)

/-- A function is defined in step. -/
theorem define_alike (name : String) (c : Callable) (doc : Option String)
    (command : Option Command) :
    (define name c doc command).Alike P (define name c doc command) fun P' => P'.Held := by
  refine .keeping_handle ((symbol_alike name).bind fun P₁ h h' _ hh =>
    (callingForm_alike c).bind fun P₂ u u' hP₂ hu =>
      (symbol_alike "defun").bind fun P₃ g g' hP₃ hg => ?_)
  -- what follows the name and the lambda list may be a text, a command, and the body
  have hrest : ∀ {P₄ : Pairing L} {ds ds' : List Value}, P₃.held <:+ P₄.held →
      List.Forall₂ (Value.Alike P₄.Held) ds ds' →
      (do
        let form ← list ([.handle g, .handle h, u.1] ++ (doc.map Value.text).toList ++ ds ++ [u.2])
        let _ ← evaluate form
        pure h : Proc Handle).Alike P₄ (do
        let form ←
          list ([.handle g', .handle h', u'.1] ++ (doc.map Value.text).toList ++ ds' ++ [u'.2])
        let _ ← evaluate form
        pure h') fun P' => P'.Held := by
    intro P₄ ds ds' hP₄ hds
    have hP := (hP₂.trans hP₃).trans hP₄
    have hdoc : List.Forall₂ (Value.Alike P₄.Held) (doc.map Value.text).toList
        (doc.map Value.text).toList := by
      cases doc with
      | none => exact .nil
      | some s => exact .cons rfl .nil
    have hitems := List.rel_append (List.rel_append (List.rel_append
      (.cons (Pairing.alike_of_suffix hP₄ (Value.alike_handle hg))
        (.cons (Pairing.alike_of_suffix hP (Value.alike_handle hh))
          (.cons (Pairing.alike_of_suffix (hP₃.trans hP₄) hu.1) .nil))) hdoc) hds)
      (.cons (Pairing.alike_of_suffix (hP₃.trans hP₄) hu.2) .nil)
    refine (list_alike hitems).bind fun P₅ form form' hP₅ hform => ?_
    refine (evaluate_alike hform).bind fun P₆ _ _ hP₆ _ => .pure ?_
    exact Pairing.held_of_suffix (hP.trans (hP₅.trans hP₆)) hh
  -- a command adds one more form
  cases command with
  | none => exact hrest List.suffix_rfl .nil
  | some command =>
    exact (commandForm_alike command).bind fun P₄ d d' hP₄ hd => hrest hP₄ (.cons hd .nil)

/-! ### Scopes -/

theorem requireNullary_alike (c : Callable) :
    (requireNullary c).Alike P (requireNullary c) fun _ _ _ => True := by
  unfold requireNullary
  split
  · exact .fail _
  · exact .pure trivial

/-- The bindings of a form are made in step, one after the other. -/
theorem bindingForms_alike (hfs : List.Forall₂ (FieldAlike P.Held) fs fs') :
    (bindingForms fs).Alike P (bindingForms fs') fun P' =>
      List.Forall₂ (PairAlike P'.Held) := by
  -- the induction is on the fields, in step
  induction fs generalizing P fs' with
  | nil =>
    obtain rfl := List.forall₂_nil_left_iff.mp hfs
    exact .pure .nil
  | cons f fs ih =>
    obtain ⟨f', gs', hf, hgs, rfl⟩ := List.forall₂_cons_left_iff.mp hfs
    obtain ⟨name, v⟩ := f
    obtain ⟨name', v'⟩ := f'
    obtain ⟨rfl, hv⟩ := hf
    refine (symbol_alike name).bind fun P₁ h h' hP₁ hh => ?_
    refine (Alike.keeping_value ((quoteIfList_alike (Pairing.alike_of_suffix hP₁ hv)).bind
      fun P₂ w w' hP₂ hw => list_alike (.cons
        (Pairing.alike_of_suffix hP₂ (Value.alike_handle hh)) (.cons hw .nil)))).bind
      fun P₂ form form' hP₂ hform => ?_
    refine (ih (fields_of_suffix (hP₁.trans hP₂) hgs)).bind fun P₃ us us' hP₃ hus => .pure ?_
    exact .cons ⟨Pairing.alike_of_suffix (hP₂.trans hP₃) (Value.alike_handle hh),
      Pairing.alike_of_suffix hP₃ hform⟩ hus

/-- The first parts of pairs that are alike are alike. -/
theorem forall₂_fst (hus : List.Forall₂ (PairAlike P.Held) us us') :
    List.Forall₂ (Value.Alike P.Held) (us.map Prod.fst) (us'.map Prod.fst) :=
  List.rel_map (fun _ _ h => h.1) hus

/-- The second parts of pairs that are alike are alike. -/
theorem forall₂_snd (hus : List.Forall₂ (PairAlike P.Held) us us') :
    List.Forall₂ (Value.Alike P.Held) (us.map Prod.snd) (us'.map Prod.snd) :=
  List.rel_map (fun _ _ h => h.2) hus

/-- Script code binds the same host variables to the same values. -/
theorem bindVariables_alike (hfs : List.Forall₂ (FieldAlike P.Held) fs fs') (c : Callable) :
    (bindVariables fs c).Alike P (bindVariables fs' c) fun P' => Value.Alike P'.Held := by
  refine .keeping_value ?_
  rw [hfs.length_eq]
  refine (Alike.ofExcept _).bind ?_
  rintro _ passes _ - ⟨rfl, rfl⟩
  -- the forms for the bindings come first, and then the call
  refine (bindingForms_alike hfs).bind fun P₁ us us' _ hus => ?_
  refine (symbol_alike "funcall").bind fun P₂ g g' hP₂ hg => ?_
  refine (quoteFunction_alike c).bind fun P₃ w w' hP₃ hw => ?_
  have hnames : List.Forall₂ (Value.Alike P₃.Held) (if passes then us.map Prod.fst else [])
      (if passes then us'.map Prod.fst else []) := by
    -- the names are passed on, or none
    split
    · exact Pairing.forall₂_of_suffix (hP₂.trans hP₃) (forall₂_fst hus)
    · exact .nil
  refine (Alike.keeping_value ((symbol_alike "let").bind fun P₄ l l' hP₄ hl => ?_)).bind
    fun _ _ _ _ hform => evaluate_alike hform
  have hP := (hP₂.trans hP₃).trans hP₄
  refine (list_alike (forall₂_snd (pairs_of_suffix hP hus))).bind fun P₅ b b' hP₅ hb => ?_
  refine (list_alike (.cons
    (Pairing.alike_of_suffix ((hP₃.trans hP₄).trans hP₅) (Value.alike_handle hg))
    (.cons (Pairing.alike_of_suffix (hP₄.trans hP₅) hw)
      (Pairing.forall₂_of_suffix (hP₄.trans hP₅) hnames)))).bind fun P₆ body body' hP₆ hbody => ?_
  exact list_alike (.cons (Pairing.alike_of_suffix (hP₅.trans hP₆) (Value.alike_handle hl))
    (.cons (Pairing.alike_of_suffix hP₆ hb) (.cons hbody .nil)))

theorem callForm_alike (c : Callable) :
    (callForm c).Alike P (callForm c) fun P' => Value.Alike P'.Held :=
  .keeping_value ((symbol_alike "funcall").bind fun _ _ _ _ hh =>
    (quoteFunction_alike c).bind fun _ _ _ hP hw =>
      list_alike (.cons (Pairing.alike_of_suffix hP (Value.alike_handle hh)) (.cons hw .nil)))

/-- A form that runs a function in a buffer is made and evaluated in step. -/
theorem inBuffer_alike (hv : v.Alike P.Held v') (c : Callable) :
    (inBuffer v c).Alike P (inBuffer v' c) fun P' => Value.Alike P'.Held := by
  refine .keeping_value ((requireNullary_alike c).bind fun P₁ _ _ hP₁ _ => ?_)
  refine (Alike.keeping_value ((callForm_alike c).bind fun P₂ body body' hP₂ hbody =>
    (symbol_alike "with-current-buffer").bind fun P₃ h h' hP₃ hh => ?_)).bind
    fun _ _ _ _ hform => evaluate_alike hform
  have hv₃ := Pairing.alike_of_suffix ((hP₁.trans hP₂).trans hP₃) hv
  refine (quoteIfList_alike hv₃).bind fun P₄ b b' hP₄ hb => ?_
  exact list_alike (.cons (Pairing.alike_of_suffix hP₄ (Value.alike_handle hh))
    (.cons hb (.cons (Pairing.alike_of_suffix (hP₃.trans hP₄) hbody) .nil)))

/-- A form that runs a function in a temporary buffer is made and evaluated in step. -/
theorem inTemporaryBuffer_alike (c : Callable) :
    (inTemporaryBuffer c).Alike P (inTemporaryBuffer c) fun P' => Value.Alike P'.Held := by
  refine .keeping_value ((requireNullary_alike c).bind fun P₁ _ _ _ _ => ?_)
  refine (Alike.keeping_value ((callForm_alike c).bind fun P₂ body body' _ hbody =>
    (symbol_alike "with-temp-buffer").bind fun P₃ h h' hP₃ hh => ?_)).bind
    fun _ _ _ _ hform => evaluate_alike hform
  exact list_alike (.cons (Value.alike_handle hh)
    (.cons (Pairing.alike_of_suffix hP₃ hbody) .nil))

/-- A form that the border makes by name is made and evaluated in step. -/
theorem specialForm_alike (name : String) (hvs : List.Forall₂ (Value.Alike P.Held) vs vs') :
    (specialForm name vs).Alike P (specialForm name vs') fun P' => Value.Alike P'.Held := by
  refine .keeping_value ((symbol_alike name).bind fun P₁ h h' hP₁ hh => ?_)
  refine (quoteAll_alike (Pairing.forall₂_of_suffix hP₁ hvs)).bind fun P₂ ws ws' hP₂ hws => ?_
  exact (list_alike (.cons (Pairing.alike_of_suffix hP₂ (Value.alike_handle hh)) hws)).bind
    fun _ _ _ _ hform => evaluate_alike hform

/-! ### Structures -/

/-- Entries are put into a table in step, one after the other. -/
theorem putEntries_alike (hv : v.Alike P.Held v')
    (hus : List.Forall₂ (PairAlike P.Held) us us') :
    (putEntries v us).Alike P (putEntries v' us') fun _ _ _ => True := by
  induction us generalizing P us' with
  | nil =>
    obtain rfl := List.forall₂_nil_left_iff.mp hus
    exact .pure trivial
  | cons u us ih =>
    obtain ⟨u', ws', hu, hws, rfl⟩ := List.forall₂_cons_left_iff.mp hus
    have hput := call_alike "puthash" (.cons hu.1 (.cons hu.2 (.cons hv .nil)))
    have hheld : (Proc.holding (call "puthash" [u.1, u.2, v])).Alike P
        (Proc.holding (call "puthash" [u'.1, u'.2, v'])) fun _ _ _ => True :=
      hput.held fun _ _ _ _ _ _ => trivial
    exact hheld.bind fun P₁ _ _ hP₁ _ =>
      ih (Pairing.alike_of_suffix hP₁ hv) (pairs_of_suffix hP₁ hws)

/-- A table is made in step. -/
theorem table_alike (hus : List.Forall₂ (PairAlike P.Held) us us') :
    (table us).Alike P (table us') fun P' => Value.Alike P'.Held := by
  refine .keeping_value ((Alike.keeping_value ((keyword_alike "test").bind
    fun P₁ h h' _ hh => (symbol_alike "equal").bind fun P₂ g g' hP₂ hg =>
      call_alike "make-hash-table" (.cons (Pairing.alike_of_suffix hP₂ (Value.alike_handle hh))
        (.cons (Value.alike_handle hg) .nil)))).bind fun P₁ t t' hP₁ ht => ?_)
  exact (putEntries_alike ht (pairs_of_suffix hP₁ hus)).bind fun P₂ _ _ hP₂ _ =>
    .pure (Pairing.alike_of_suffix hP₂ ht)

/-- An association list is made in step. -/
theorem alist_alike (hus : List.Forall₂ (PairAlike P.Held) us us') :
    (alist us).Alike P (alist us') fun P' => Value.Alike P'.Held := by
  have hpairs := Alike.mapM_held (g := fun u : Value × Value => call "cons" [u.1, u.2])
    (E := fun P => PairAlike P.Held) (Q := fun P => Value.Alike P.Held)
    (fun _ _ _ _ hP hu => ⟨Pairing.alike_of_suffix hP hu.1, Pairing.alike_of_suffix hP hu.2⟩)
    (fun _ _ _ _ hP hv => Pairing.alike_of_suffix hP hv)
    (fun _ _ _ hu => call_alike "cons" (.cons hu.1 (.cons hu.2 .nil))) hus
  exact .keeping_value (hpairs.bind fun _ _ _ _ hvs => list_alike hvs)

/-- Names and values are listed in turn in step, with names as keywords. -/
theorem keyed_alike (hfs : List.Forall₂ (FieldAlike P.Held) fs fs') :
    (keyed fs).Alike P (keyed fs') fun P' => List.Forall₂ (Value.Alike P'.Held) := by
  induction fs generalizing P fs' with
  | nil =>
    obtain rfl := List.forall₂_nil_left_iff.mp hfs
    exact .pure .nil
  | cons f fs ih =>
    obtain ⟨f', gs', hf, hgs, rfl⟩ := List.forall₂_cons_left_iff.mp hfs
    obtain ⟨name, v⟩ := f
    obtain ⟨name', v'⟩ := f'
    obtain ⟨rfl, hv⟩ := hf
    refine (keyword_alike name).bind fun P₁ h h' hP₁ hh => ?_
    refine (ih (fields_of_suffix hP₁ hgs)).bind fun P₂ ws ws' hP₂ hws => .pure ?_
    exact .cons (Pairing.alike_of_suffix hP₂ (Value.alike_handle hh))
      (.cons (Pairing.alike_of_suffix (hP₁.trans hP₂) hv) hws)

/-- A property list is made in step. -/
theorem plist_alike (hfs : List.Forall₂ (FieldAlike P.Held) fs fs') :
    (plist fs).Alike P (plist fs') fun P' => Value.Alike P'.Held :=
  .keeping_value ((keyed_alike hfs).bind fun _ _ _ _ hvs => list_alike hvs)

/-- A vector is made in step. -/
theorem vector_alike (hvs : List.Forall₂ (Value.Alike P.Held) vs vs') :
    (vector vs).Alike P (vector vs') fun P' => Value.Alike P'.Held := call_alike "vector" hvs

end Border

/-! ### What the host does with forms -/

namespace Host

open Proc

/-- The host runs the same registered function, on the same objects. -/
theorem reenter_alike (index generation args : Obj) :
    (reenter index generation args).Alike P (reenter index generation args) fun _ => Eq := by
  refine keeps_heap.alike.bind ?_
  rintro _ h _ - rfl
  refine (keeps_check _).alike.bind ?_
  rintro _ key _ - rfl
  refine (keeps_check _).alike.bind ?_
  rintro _ objects _ - rfl
  refine (sendAll_alike objects).bind fun P₁ ps ps' _ ⟨_, hps⟩ => ?_
  exact (Border.invoke_alike key hps).bind fun P₂ p p' _ hp => receive_alike hp

/-- A callback or wrapped value is cleared in step, as its key is the same. -/
theorem clearProxy_alike (index generation : Obj) :
    (clear .clearProxy index generation).Alike P (clear .clearProxy index generation)
      fun _ => Eq := by
  refine keeps_heap.alike.bind ?_
  rintro _ h _ - rfl
  refine (keeps_check _).alike.bind ?_
  rintro _ key _ - rfl
  exact (Alike.change (.clearProxy key)).bind fun _ _ _ _ _ => keeps_truth.alike

theorem collect_alike : collect.Alike P collect fun _ => Eq :=
  .sweep fun _ _ _ => .pure rfl

theorem evaluateScript_alike (source : Obj) :
    (evaluateScript source).Alike P (evaluateScript source) fun _ => Eq := by
  refine keeps_heap.alike.bind ?_
  rintro _ h _ - rfl
  refine (keeps_check _).alike.bind ?_
  rintro _ text _ - rfl
  exact (Border.evaluateSource_alike text).bind fun _ _ _ _ hp => receive_alike hp

theorem run_alike (b : Builtin) (args : List Obj) :
    (b.run args).Alike P (b.run args) fun _ => Eq := by
  unfold Builtin.run
  split
  · cases b with
    | reenter => exact reenter_alike _ _ _
    | clearProxy => exact clearProxy_alike _ _
    | collect => exact collect_alike
    | evaluateScript => exact evaluateScript_alike _
    | _ => exact (Builtin.keeps_compute _ rfl args).alike
  · exact .fail _

theorem applyFunction_alike (o : Obj) (args : List Obj) :
    (applyFunction o args).Alike P (applyFunction o args) fun _ => Eq := by
  refine keeps_heap.alike.bind ?_
  rintro _ h _ - rfl
  split
  · exact run_alike _ args
  · exact (keeps_callClosure _ args).alike
  · exact .fail _

/-- The host applies the same function to the same effect. -/
theorem application_alike (o : Obj) (args : List Obj) :
    (application o args).Alike P (application o args) fun _ => Eq := by
  have hnamed : (do let f ← functionOf o; applyFunction f args : Proc Obj).Alike P
      (do let f ← functionOf o; applyFunction f args) fun _ => Eq := by
    refine (keeps_functionOf o).alike.bind ?_
    rintro _ f _ - rfl
    exact applyFunction_alike f args
  refine (Alike.query (.shared rfl)).bind ?_
  rintro _ h _ - ⟨rfl, rfl⟩
  split
  · exact hnamed
  · exact hnamed
  · exact applyFunction_alike o args

end Host

end Crossing
