import Crossing.Run

/-!
# What the host does by itself

The host has no business with the numbers of objects and with handles, other
than in the exchange: running script functions, taking in and sending out
objects, and sweeps. Nor does it go on after a failure, other than in the special
form for that.

- `Limits` are what a procedure may be held to, and `Proc.Keeps` says that it is;
- `keeps_evaluation`, `Builtin.keeps_compute`: evaluation and all builtins outside
  of the exchange keep to what two runs share;
- `keeps_run`: of the special forms, one goes on after a failure.
-/

namespace Crossing

variable {α β : Type}

/-! ### What two runs share -/

/-- What is asked of a part of the world that two runs share. -/
def Query.isShared : Query α → Bool
  | .heap | .symbol? _ | .currentBuffer | .config | .callback? _ | .evaluator => true
  | _ => false

/-- What is done to a part of the world that two runs share. -/
def Change.isShared : Change α → Bool
  | .make _ | .intern _ | .unintern _ | .setHead _ _ | .setValue _ _ | .setFunction _ _
  | .setItem _ _ _ | .putEntry _ _ _ | .ensureBuffer _ | .killBuffer _ | .selectBuffer _
  | .appendText _ _ | .temporaryName | .register _ | .clearCallback _ | .setEvaluator _
  | .newIdentity | .startSweeper | .advance _ => true
  | _ => false

/-- The scopes of evaluation. -/
def Scope.isShared : Scope → Bool
  | .evaluation | .binding _ | .buffer _ | .temporary _ => true
  | _ => false

/-- The tasks of the host. -/
def Task.isShared : Task α → Bool
  | .evaluate _ | .apply _ _ => true
  | _ => false

/-! ### Procedures that keep to limits -/

/-- What a procedure may do by itself. -/
structure Limits where
  /-- Only read and change what two runs share, and leave the rest to tasks of the
  host. -/
  sharedOnly : Bool
  /-- Go on after a failure. -/
  mayRecover : Bool

namespace Limits

/-- What two runs do alike. -/
abbrev shared : Limits := ⟨true, true⟩

/-- Anything but to go on after a failure. -/
abbrev strict : Limits := ⟨false, false⟩

end Limits

variable {l : Limits}

namespace Proc

/-- Whether a procedure keeps to limits. -/
def Keeps {α : Type} (l : Limits) : Proc α → Prop
  | .done _ => True
  | .stop _ => True
  | .ask q next => (l.sharedOnly = true → q.isShared = true) ∧ ∀ x, (next x).Keeps l
  | .act c next => (l.sharedOnly = true → c.isShared = true) ∧ ∀ x, (next x).Keeps l
  | .task t next => (l.sharedOnly = true → t.isShared = true) ∧ ∀ x, (next x).Keeps l
  | .inside s part next =>
    (l.sharedOnly = true → s.isShared = true) ∧ part.Keeps l ∧ ∀ x, (next x).Keeps l
  | .attempt part next => l.mayRecover = true ∧ part.Keeps l ∧ ∀ x, (next x).Keeps l
  | .loop part next => part.Keeps l ∧ next.Keeps l

variable {p : Proc α} {f : α → Proc β}

theorem Keeps.bind (hp : p.Keeps l) (hf : ∀ a, (f a).Keeps l) : (p >>= f).Keeps l := by
  change (p.bind f).Keeps l
  induction p with
  | done a => exact hf a
  | stop s => trivial
  | ask q next ih => exact ⟨hp.1, fun x => ih x (hp.2 x) hf⟩
  | act c next ih => exact ⟨hp.1, fun x => ih x (hp.2 x) hf⟩
  | task t next ih => exact ⟨hp.1, fun x => ih x (hp.2 x) hf⟩
  | inside s part next _ ih => exact ⟨hp.1, hp.2.1, fun x => ih x (hp.2.2 x) hf⟩
  | attempt part next _ ih => exact ⟨hp.1, hp.2.1, fun x => ih x (hp.2.2 x) hf⟩
  | loop part next _ ih => exact ⟨hp.1, ih hp.2 hf⟩

@[simp] theorem keeps_pure (a : α) : (pure a : Proc α).Keeps l := trivial

@[simp] theorem keeps_bind (hp : p.Keeps l) (hf : ∀ a, (f a).Keeps l) :
    (p >>= f).Keeps l := hp.bind hf

@[simp] theorem keeps_map (hp : p.Keeps l) (g : α → β) : (g <$> p).Keeps l := by
  rw [map_eq_pure_bind]
  exact hp.bind fun _ => trivial

@[simp] theorem keeps_fail (f : Failure) : (fail f : Proc α).Keeps l := trivial

@[simp] theorem keeps_signal (s : Signal) : (signal s : Proc α).Keeps l := trivial

@[simp] theorem keeps_heap : heap.Keeps l := ⟨fun _ => rfl, fun _ => trivial⟩

@[simp] theorem keeps_make (x : Fresh) : (make x).Keeps l := ⟨fun _ => rfl, fun _ => trivial⟩

@[simp] theorem keeps_query {q : Query α} (hq : l.sharedOnly = true → q.isShared = true) :
    (query q).Keeps l := ⟨hq, fun _ => trivial⟩

@[simp] theorem keeps_change {c : Change α} (hc : l.sharedOnly = true → c.isShared = true) :
    (change c).Keeps l := ⟨hc, fun _ => trivial⟩

@[simp] theorem keeps_within {s : Scope} (hs : l.sharedOnly = true → s.isShared = true)
    (hp : p.Keeps l) : (within s p).Keeps l := ⟨hs, hp, fun _ => trivial⟩

theorem keeps_outcome (hl : l.mayRecover = true) (hp : p.Keeps l) : (outcome p).Keeps l :=
  ⟨hl, hp, fun _ => trivial⟩

@[simp] theorem keeps_repeating {p : Proc Bool} (hp : p.Keeps l) : (repeating p).Keeps l :=
  ⟨hp, trivial⟩

@[simp] theorem keeps_ofExcept (r : Except Failure α) : (ofExcept r).Keeps l := by
  cases r <;> trivial

theorem keeps_mapM {g : α → Proc β} (hg : ∀ a, (g a).Keeps l) (as : List α) :
    (as.mapM g).Keeps l := by
  induction as with
  | nil => trivial
  | cons a as ih =>
    rw [List.mapM_cons]
    exact (hg a).bind fun b => ih.bind fun bs => trivial

theorem keeps_foldlM {g : β → α → Proc β} (hg : ∀ b a, (g b a).Keeps l) (as : List α)
    (b : β) : (as.foldlM g b).Keeps l := by
  induction as generalizing b with
  | nil => trivial
  | cons a as ih => exact (hg b a).bind ih

end Proc

namespace Host

open Proc

@[simp] theorem keeps_check (r : Except Signal α) : (check r).Keeps l := by
  cases r <;> trivial

@[simp] theorem keeps_evaluate (form : Obj) : (evaluate form).Keeps l :=
  ⟨fun _ => rfl, fun _ => trivial⟩

@[simp] theorem keeps_apply (function : Obj) (args : List Obj) :
    (apply function args).Keeps l := ⟨fun _ => rfl, fun _ => trivial⟩

/-! ### Building objects -/

@[simp] theorem keeps_truth : truth.Keeps l := keeps_change fun _ => rfl

@[simp] theorem keeps_intern (name : String) : (change (.intern name)).Keeps l :=
  keeps_change fun _ => rfl

@[simp] theorem keeps_ofFlag (b : Bool) : (ofFlag b).Keeps l := by
  cases b <;> simp [ofFlag]

@[simp] theorem keeps_ofText (s : String) : (ofText s).Keeps l := keeps_make _

@[simp] theorem keeps_dotted (items : List Obj) (last : Obj) :
    (dotted items last).Keeps l := by
  induction items with
  | nil => simp [dotted]
  | cons o items ih => simp [dotted, ih]

@[simp] theorem keeps_list (items : List Obj) : (list items).Keeps l :=
  keeps_dotted items .nil

@[simp] theorem keeps_marker (key : Key) : (marker key).Keeps l := by
  simp [marker]

mutual

theorem keeps_ofDatum : ∀ j : Json, (ofDatum j).Keeps l
  | .null => by simp [ofDatum]
  | .bool b => by simp [ofDatum]
  | .int i => by simp [ofDatum]
  | .float x raw => by simp [ofDatum]
  | .text s => by simp [ofDatum]
  | .list items => by
    rw [ofDatum]
    exact (keeps_ofData items).bind fun _ => keeps_make _
  | .object fields => by
    rw [ofDatum]
    exact (keeps_ofFields fields).bind fun _ => keeps_list _

theorem keeps_ofData : ∀ js : List Json, (ofData js).Keeps l
  | [] => by simp [ofData]
  | j :: js => by
    rw [ofData]
    exact (keeps_ofDatum j).bind fun _ => (keeps_ofData js).bind fun _ => trivial

theorem keeps_ofFields : ∀ fields : List (String × Json), (ofFields fields).Keeps l
  | [] => by simp [ofFields]
  | (name, j) :: fields => by
    rw [ofFields]
    exact (keeps_intern _).bind fun _ => (keeps_ofDatum j).bind fun _ =>
      (keeps_ofFields fields).bind fun _ => trivial

end

@[simp] theorem keeps_readDatum (text : String) : (readDatum text).Keeps l := by
  unfold readDatum
  split <;> simp

@[simp] theorem keeps_structuralForm (o : Obj) : (structuralForm o).Keeps l := by
  refine keeps_heap.bind fun h => ?_
  split <;> simp

/-! ### Sequences, symbols and tables -/

theorem keeps_car (o : Obj) : (car o).Keeps l := by
  refine keeps_heap.bind fun h => ?_
  split <;> simp

theorem keeps_cdr (o : Obj) : (cdr o).Keeps l := by
  refine keeps_heap.bind fun h => ?_
  split <;> simp

theorem keeps_setCar (pair o : Obj) : (setCar pair o).Keeps l := by
  refine keeps_heap.bind fun h => ?_
  split
  · exact (keeps_change fun _ => rfl).bind fun _ => trivial
  · simp

theorem keeps_nth (place items : Obj) : (nth place items).Keeps l :=
  keeps_heap.bind fun _ => (keeps_check _).bind fun _ =>
    (keeps_check _).bind fun _ => trivial

theorem keeps_length (o : Obj) : (length o).Keeps l := by
  refine keeps_heap.bind fun h => ?_
  split <;> simp

theorem keeps_reverse (o : Obj) : (reverse o).Keeps l := by
  refine keeps_heap.bind fun h => ?_
  split <;> simp

theorem keeps_plistGet (items key : Obj) : (plistGet items key).Keeps l := by
  simp [plistGet]

theorem keeps_concat (args : List Obj) : (concat args).Keeps l := by
  simp [concat]

theorem keeps_makeVector (count o : Obj) : (makeVector count o).Keeps l := by
  simp [makeVector]

theorem keeps_aref (vector index : Obj) : (aref vector index).Keeps l := by
  simp [aref]

theorem keeps_aset (vector index o : Obj) : (aset vector index o).Keeps l :=
  keeps_heap.bind fun _ => (keeps_check _).bind fun _ =>
    (keeps_change fun _ => rfl).bind fun _ => trivial

theorem keeps_internText (o : Obj) : (internText o).Keeps l := by
  simp [internText]

theorem keeps_uninternName (o : Obj) : (uninternName o).Keeps l := by
  refine keeps_heap.bind fun h => ?_
  split <;> refine .bind (by simp) fun name => ?_ <;>
    exact (keeps_change fun _ => rfl).bind keeps_ofFlag

theorem keeps_symbolName (o : Obj) : (symbolName o).Keeps l := by
  refine keeps_heap.bind fun h => ?_
  split <;> simp

theorem keeps_symbolValue (o : Obj) : (symbolValue o).Keeps l := by
  refine keeps_heap.bind fun h => ?_
  split
  · simp
  · split
    · simp
    · split <;> simp
  · simp

theorem keeps_symbolFunction (o : Obj) : (symbolFunction o).Keeps l := by
  simp [symbolFunction]

theorem keeps_setValue (symbol o : Obj) : (setValue symbol o).Keeps l :=
  keeps_heap.bind fun _ => (keeps_check _).bind fun _ =>
    (keeps_change fun _ => rfl).bind fun _ => trivial

theorem keeps_setFunction (symbol o : Obj) : (setFunction symbol o).Keeps l :=
  keeps_heap.bind fun _ => (keeps_check _).bind fun _ =>
    (keeps_change fun _ => rfl).bind fun _ => trivial

theorem keeps_documentation (o : Obj) : (documentation o).Keeps l := by
  refine keeps_heap.bind fun h => ?_
  split
  · simp
  · split <;> simp
  · simp

theorem keeps_signalUnder (symbol data : Obj) : (signalUnder symbol data).Keeps l := by
  refine keeps_heap.bind fun h => ?_
  split <;> simp

theorem keeps_raise (format : Obj) (args : List Obj) : (raise format args).Keeps l :=
  keeps_heap.bind fun _ => (keeps_check _).bind fun _ =>
    (keeps_check _).bind fun _ => keeps_signal _

theorem keeps_putEntry (predicate : String) (key value table : Obj) :
    (putEntry predicate key value table).Keeps l :=
  keeps_heap.bind fun _ => (keeps_check _).bind fun _ =>
    (keeps_change fun _ => rfl).bind fun _ => trivial

theorem keeps_getEntry (predicate : String) (key table default : Obj) :
    (getEntry predicate key table default).Keeps l := by
  simp [getEntry]

theorem keeps_countEntries (table : Obj) : (countEntries table).Keeps l := by
  simp [countEntries]

/-! ### Buffers -/

theorem keeps_currentBuffer : currentBuffer.Keeps l :=
  (keeps_query fun _ => rfl).bind fun _ => trivial

theorem keeps_bufferOr (o : Option Obj) : (bufferOr o).Keeps l := by
  unfold bufferOr
  split
  · exact keeps_query fun _ => rfl
  · simp

theorem keeps_bufferName (o : Option Obj) : (bufferName o).Keeps l := by
  refine keeps_heap.bind fun h => ?_
  split
  · simp
  · exact (keeps_bufferOr o).bind fun _ => keeps_ofText _

theorem keeps_getBuffer (name : Obj) : (getBuffer name).Keeps l := by
  simp [getBuffer]

theorem keeps_createBuffer (name : Obj) : (createBuffer name).Keeps l :=
  keeps_heap.bind fun _ => (keeps_check _).bind fun _ =>
    (keeps_change fun _ => rfl).bind fun _ => trivial

theorem keeps_selectBuffer (o : Obj) : (selectBuffer o).Keeps l :=
  keeps_heap.bind fun _ => (keeps_check _).bind fun _ =>
    (keeps_change fun _ => rfl).bind fun _ => trivial

theorem keeps_killBuffer (o : Option Obj) : (killBuffer o).Keeps l :=
  (keeps_bufferOr o).bind fun _ => (keeps_change fun _ => rfl).bind fun _ => keeps_truth

theorem keeps_appendTexts (a : Addr) (os : List Obj) : (appendTexts a os).Keeps l := by
  induction os with
  | nil => simp [appendTexts]
  | cons o rest ih =>
    exact keeps_heap.bind fun _ => (keeps_check _).bind fun _ =>
      (keeps_change fun _ => rfl).bind fun _ => ih

theorem keeps_insert (args : List Obj) : (insert args).Keeps l :=
  (keeps_query fun _ => rfl).bind fun a => keeps_appendTexts a args

theorem keeps_bufferText : bufferText.Keeps l :=
  keeps_heap.bind fun _ => (keeps_query fun _ => rfl).bind fun _ => keeps_ofText _

/-! ### Control -/

theorem keeps_sequence (forms : List Obj) : (sequence forms).Keeps l :=
  keeps_foldlM (fun _ form => keeps_evaluate form) forms .nil

theorem keeps_makeClosure (forms : List Obj) : (makeClosure forms).Keeps l := by
  simp [makeClosure]

@[simp] theorem keeps_wrongForm (name : String) : (wrongForm name : Proc α).Keeps l :=
  keeps_signal _

theorem keeps_quote (args : List Obj) : (quote args).Keeps l := by
  unfold quote
  split <;> simp

theorem keeps_function (args : List Obj) : (function args).Keeps l := by
  unfold function
  split
  · refine keeps_heap.bind fun h => ?_
    split
    · exact keeps_makeClosure _
    · simp
  · simp

theorem keeps_defun (args : List Obj) : (defun args).Keeps l := by
  unfold defun
  split
  · simp
  · exact keeps_heap.bind fun _ => (keeps_check _).bind fun _ =>
      (keeps_makeClosure _).bind fun _ => (keeps_change fun _ => rfl).bind fun _ => trivial

theorem keeps_cond (args : List Obj) : (cond args).Keeps l := by
  unfold cond
  split
  · refine (keeps_evaluate _).bind fun o => ?_
    split
    · exact keeps_sequence _
    · exact keeps_evaluate _
  · simp

theorem keeps_conjunction (forms : List Obj) (last : Obj) :
    (conjunction forms last).Keeps l := by
  induction forms generalizing last with
  | nil => trivial
  | cons form forms ih =>
    refine (keeps_evaluate form).bind fun o => ?_
    split
    · trivial
    · exact ih o

theorem keeps_disjunction (forms : List Obj) : (disjunction forms).Keeps l := by
  induction forms with
  | nil => trivial
  | cons form forms ih =>
    refine (keeps_evaluate form).bind fun o => ?_
    split
    · exact ih
    · trivial

theorem keeps_loop (args : List Obj) : (loop args).Keeps l := by
  unfold loop
  split
  · simp
  · refine (keeps_repeating ?_).bind fun _ => trivial
    refine (keeps_evaluate _).bind fun o => ?_
    split
    · trivial
    · exact (keeps_sequence _).bind fun _ => trivial

theorem keeps_unwindProtect (hl : l.mayRecover = true) (args : List Obj) :
    (unwindProtect args).Keeps l := by
  unfold unwindProtect
  split
  · simp
  · exact (keeps_outcome hl (keeps_evaluate _)).bind fun r =>
      (keeps_sequence _).bind fun _ => keeps_ofExcept r

/-! ### Variables and modes -/

theorem keeps_assignPairs : ∀ (args : List Obj) (last : Obj), (assignPairs args last).Keeps l
  | [], _ => trivial
  | [_], _ => trivial
  | _ :: form :: rest, _ =>
    keeps_heap.bind fun _ => (keeps_check _).bind fun _ =>
      (keeps_evaluate form).bind fun o => (keeps_change fun _ => rfl).bind fun _ =>
        keeps_assignPairs rest o

theorem keeps_setq (args : List Obj) : (setq args).Keeps l := by
  unfold setq
  split
  · exact keeps_assignPairs args .nil
  · simp

theorem keeps_defvar (args : List Obj) : (defvar args).Keeps l := by
  unfold defvar
  split
  · simp
  · simp
  · refine keeps_heap.bind fun _ => (keeps_check _).bind fun _ => ?_
    split
    · trivial
    · exact (keeps_evaluate _).bind fun _ => (keeps_change fun _ => rfl).bind fun _ => trivial

theorem keeps_bindOneByOne (bindings : List (Addr × Obj)) (body : List Obj) :
    (bindOneByOne bindings body).Keeps l := by
  induction bindings with
  | nil => exact keeps_sequence body
  | cons b bindings ih => exact (keeps_evaluate _).bind fun _ => keeps_within (fun _ => rfl) ih

theorem keeps_bindTogether (bindings : List (Addr × Obj)) (body : List Obj) :
    (bindTogether bindings body).Keeps l := by
  refine .bind (keeps_mapM (fun b => ?_) bindings) fun values =>
    keeps_within (fun _ => rfl) (keeps_sequence body)
  exact (keeps_evaluate b.2).bind fun _ => trivial

theorem keeps_letForm (sequential : Bool) (args : List Obj) :
    (letForm sequential args).Keeps l := by
  unfold letForm
  split
  · simp
  · refine keeps_heap.bind fun _ => (keeps_check _).bind fun _ =>
      (keeps_check _).bind fun _ => ?_
    split
    · exact keeps_bindOneByOne _ _
    · exact keeps_bindTogether _ _

theorem keeps_withBuffer (args : List Obj) : (withBuffer args).Keeps l := by
  unfold withBuffer
  split
  · simp
  · exact (keeps_evaluate _).bind fun _ => keeps_heap.bind fun _ =>
      (keeps_check _).bind fun _ => keeps_within (fun _ => rfl) (keeps_sequence _)

theorem keeps_withTemporaryBuffer (body : List Obj) :
    (withTemporaryBuffer body).Keeps l :=
  (keeps_change fun _ => rfl).bind fun _ => (keeps_change fun _ => rfl).bind fun _ =>
    keeps_within (fun _ => rfl) (keeps_sequence body)

@[simp] theorem keeps_formOf (name : String) (args : List Obj) :
    (formOf name args).Keeps l :=
  (keeps_intern name).bind fun _ => keeps_list _

theorem keeps_minorMode (args : List Obj) : (minorMode args).Keeps l := by
  unfold minorMode
  split
  · simp
  · refine keeps_heap.bind fun h => (keeps_check _).bind fun a => ?_
    split
    extract_lets rest
    have hrest : ∀ r, (rest r).Keeps l := fun r =>
      (keeps_formOf _ _).bind fun _ => (keeps_formOf _ _).bind fun _ =>
        (keeps_formOf _ _).bind fun _ => (keeps_makeClosure _).bind fun _ =>
          (keeps_change fun _ => rfl).bind fun _ => trivial
    split
    · exact (keeps_change fun _ => rfl).bind hrest
    · exact hrest ()

theorem keeps_derivedMode (args : List Obj) : (derivedMode args).Keeps l := by
  unfold derivedMode
  split
  · refine keeps_heap.bind fun h => (keeps_check _).bind fun a =>
      (keeps_formOf _ _).bind fun command => ?_
    extract_lets rest
    have hrest : ∀ r, (rest r).Keeps l := fun r =>
      (keeps_intern _).bind fun _ => (keeps_formOf _ _).bind fun _ =>
        (keeps_intern _).bind fun _ => (keeps_formOf _ _).bind fun _ =>
          (keeps_makeClosure _).bind fun _ => (keeps_change fun _ => rfl).bind fun _ => trivial
    split
    · exact (keeps_formOf _ _).bind fun _ => (keeps_formOf _ _).bind fun _ =>
        (keeps_list _).bind fun _ => (keeps_formOf _ _).bind fun _ => hrest _
    · exact hrest _
  · simp

/-! ### Evaluation -/

/-- Only the special form for that may go on after a failure. -/
theorem keeps_run {f : SpecialForm} (hf : f = .unwindProtect → l.mayRecover = true)
    (args : List Obj) : (f.run args).Keeps l := by
  -- each special form is made of what the host does, and so is each builtin below
  cases f with
  | quote => exact keeps_quote args
  | function => exact keeps_function args
  | lambda => exact keeps_makeClosure args
  | progn => exact keeps_sequence args
  | cond => exact keeps_cond args
  | and => exact keeps_truth.bind fun t => keeps_conjunction args t
  | or => exact keeps_disjunction args
  | «while» => exact keeps_loop args
  | setq => exact keeps_setq args
  | defvar => exact keeps_defvar args
  | defun => exact keeps_defun args
  | letParallel => exact keeps_letForm false args
  | letSequential => exact keeps_letForm true args
  | unwindProtect => exact keeps_unwindProtect (hf rfl) args
  | withBuffer => exact keeps_withBuffer args
  | withTemporaryBuffer => exact keeps_withTemporaryBuffer args
  | interactive => trivial
  | minorMode => exact keeps_minorMode args
  | derivedMode => exact keeps_derivedMode args

theorem keeps_functionOf (o : Obj) : (functionOf o).Keeps l := by
  refine keeps_heap.bind fun h => ?_
  split
  · split <;> simp
  · split
    · exact keeps_makeClosure _
    · trivial
  · trivial

theorem keeps_evaluateList (hl : l.mayRecover = true) (head tail form : Obj) :
    (evaluateList head tail form).Keeps l := by
  refine keeps_heap.bind fun h => ?_
  split
  · simp
  · split
    · exact keeps_run (fun _ => hl) _
    · exact (keeps_functionOf head).bind fun f =>
        (keeps_mapM keeps_evaluate _).bind fun _ => keeps_apply _ _

/-- Evaluation keeps to what two runs share. -/
theorem keeps_evaluation (hl : l.mayRecover = true) (form : Obj) :
    (evaluation form).Keeps l := by
  refine keeps_within (fun _ => rfl) (keeps_heap.bind fun h => ?_)
  split
  · split
    · trivial
    · split <;> simp
  · exact keeps_evaluateList hl _ _ _
  · trivial

theorem keeps_callClosure (c : Lambda) (args : List Obj) :
    (callClosure c args).Keeps l := by
  unfold callClosure
  split
  · split
    · exact (keeps_list _).bind fun _ => keeps_within (fun _ => rfl) (keeps_sequence _)
    · exact keeps_within (fun _ => rfl) (keeps_sequence _)
  · simp

mutual

theorem keeps_ofForm : ∀ f : Form, (ofForm f).Keeps l
  | .int _ | .float _ => by simp [ofForm]
  | .text s => by simp [ofForm]
  | .symbol name => by simp [ofForm]
  | .list items => by
    rw [ofForm]
    exact (keeps_ofForms items).bind fun _ => keeps_list _
  | .dotted items last => by
    rw [ofForm]
    exact (keeps_ofForms items).bind fun _ => (keeps_ofForm last).bind fun _ =>
      keeps_dotted _ _
  | .vector items => by
    rw [ofForm]
    exact (keeps_ofForms items).bind fun _ => keeps_make _

theorem keeps_ofForms : ∀ fs : List Form, (ofForms fs).Keeps l
  | [] => by simp [ofForms]
  | f :: fs => by
    rw [ofForms]
    exact (keeps_ofForm f).bind fun _ => (keeps_ofForms fs).bind fun _ => trivial

end

theorem keeps_internAll (names : List String) : (internAll names).Keeps l := by
  induction names with
  | nil => trivial
  | cons name names ih => exact (keeps_intern name).bind fun _ => ih

theorem keeps_evaluateText (source : String) : (evaluateText source).Keeps l := by
  refine .bind ?_ fun forms => keeps_sequence forms
  unfold read
  split
  · exact keeps_ofForms _
  · exact (keeps_internAll _).bind fun _ => keeps_signal _

/-! ### Builtins -/

theorem keeps_number (calculate : Heap → Except Signal Number) :
    (number calculate).Keeps l :=
  keeps_heap.bind fun _ => (keeps_check _).bind fun _ => trivial

theorem keeps_quotient (o : Obj) (args : List Obj) : (quotient o args).Keeps l := by
  refine keeps_heap.bind fun h => ?_
  split <;> trivial

theorem keeps_compare (holds : Float → Float → Bool) (args : List Obj) :
    (compare holds args).Keeps l :=
  keeps_heap.bind fun _ => (keeps_check _).bind fun _ => keeps_ofFlag _

theorem keeps_test (q : Shape → Bool) (o : Obj) : (test q o).Keeps l :=
  keeps_heap.bind fun _ => keeps_ofFlag _

theorem keeps_applyList (args : List Obj) : (applyList args).Keeps l := by
  refine keeps_heap.bind fun h => (keeps_check _).bind fun items => ?_
  split <;> simp

end Host

/-- The builtins by which the host and the border call each other, and those
that give up what script code wrapped. -/
def Builtin.isExchange : Builtin → Bool
  | .reenter | .clearProxy | .collect | .evaluateScript => true
  | _ => false

open Host in
/-- All builtins outside of the exchange keep to what two runs share. -/
theorem Builtin.keeps_compute (b : Builtin) (hb : b.isExchange = false) (args : List Obj) :
    (b.compute args).Keeps l := by
  cases b with
  | list => exact keeps_list _
  | cons => exact Proc.keeps_make _
  | car => exact keeps_car _
  | cdr => exact keeps_cdr _
  | setCar => exact keeps_setCar _ _
  | nth => exact keeps_nth _ _
  | length => exact keeps_length _
  | reverse => exact keeps_reverse _
  | plistGet => exact keeps_plistGet _ _
  | isCons | isList | isText | isNumber | isInteger | isSymbol | isVector | isBuffer
  | isTable | isFunction => exact keeps_test _ _
  | isNull | not | eq => exact keeps_ofFlag _
  | equal | isBound | hasFunction | isCommand =>
    exact Proc.keeps_heap.bind fun _ => keeps_ofFlag _
  | identity | ignore | recursiveEdit => trivial
  | add | multiply | subtract | increment => exact keeps_number _
  | divide => exact keeps_quotient _ _
  | numEq | less | greater | lessEq | greaterEq => exact keeps_compare _ _
  | concat => exact keeps_concat _
  | vector => exact Proc.keeps_make _
  | makeVector => exact keeps_makeVector _ _
  | aref => exact keeps_aref _ _
  | aset => exact keeps_aset _ _ _
  | intern => exact keeps_internText _
  | unintern => exact keeps_uninternName _
  | symbolName => exact keeps_symbolName _
  | symbolValue => exact keeps_symbolValue _
  | symbolFunction => exact keeps_symbolFunction _
  | setValue => exact keeps_setValue _ _
  | setFunction => exact keeps_setFunction _ _
  | funcall => exact keeps_apply _ _
  | apply => exact keeps_applyList _
  | evaluate => exact keeps_evaluate _
  | error => exact keeps_raise _ _
  | signal => exact keeps_signalUnder _ _
  | documentation => exact keeps_documentation _
  | makeTable | makeKeymap => exact Proc.keeps_make _
  | putEntry | defineKey => exact keeps_putEntry _ _ _ _
  | getEntry | lookupKey => exact keeps_getEntry _ _ _ _
  | countEntries => exact keeps_countEntries _
  | currentBuffer => exact keeps_currentBuffer
  | bufferName => exact keeps_bufferName _
  | getBuffer => exact keeps_getBuffer _
  | createBuffer => exact keeps_createBuffer _
  | selectBuffer => exact keeps_selectBuffer _
  | killBuffer => exact keeps_killBuffer _
  | insert => exact keeps_insert _
  | bufferText => exact keeps_bufferText
  | clearCallback =>
    exact Proc.keeps_heap.bind fun _ => (keeps_check _).bind fun _ =>
      (Proc.keeps_change fun _ => rfl).bind fun _ => keeps_truth
  | reenter | clearProxy | collect | evaluateScript => exact absurd hb Bool.noConfusion

end Crossing
