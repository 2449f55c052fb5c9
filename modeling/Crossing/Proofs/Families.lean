import Crossing.Proofs.HostObjects
import Crossing.Proofs.TwoRuns.Simulation

/-!
# What procedures are made of

All that the border does and all steps of script code are made of the same few
things: queries, changes, tasks and scopes, calls of the host, what the host makes for
script code, and lookups that ask the host. So what is closed under these holds of all
procedures, and is proved once for each of them.

- `Proc.Family`: kinds of procedures that are closed under these;
- `Border.has_call` and the like: the operations of the border;
- `Script.has_perform`: what steps of script code do;
- `Proc.HostFamily`: kinds of procedures that what the host does by itself is of, too;
- `Builtin.has_run`: all builtins of the host;
- `Proc.TaskFamily`: kinds of procedures that are closed under going on after a failure, too;
- `Task.has_body`, `Transcript.has_start`: all tasks, and sessions.
-/

namespace Crossing

variable {α β : Type}

/-- What the host does by itself, but to go on after a failure. -/
abbrev Limits.own : Limits := ⟨true, false⟩

/-- Notes of a name. They are made by lookups that ask the host. -/
def Change.notesName : Change α → Bool
  | .recordName _ _ | .cacheSymbol _ _ _ => true
  | _ => false

/-- Whether a change puts an object somewhere. -/
def Change.carries : Change α → Bool
  | .make _ | .setHead _ _ | .setValue _ _ | .setFunction _ _ | .setItem _ _ _ | .putEntry _ _ _
  | .selectBuffer _ | .retain _ => true
  | _ => false

/-- Whether the border counts a scope while it lasts. -/
def Scope.isCounted : Scope → Bool
  | .outbound | .callback _ | .source => true
  | _ => false

/-- What is done inside of the scopes that the border counts: a script function is run for
a callback, a call of the host is an application, and source is evaluated. -/
inductive Scope.IsFor : Scope → {α : Type} → Proc α → Prop where
  | callback (key : Key) (c : Callable) (args : List Parcel) :
    IsFor (.callback ⟨key, args.filterMap Parcel.reference?⟩) (Border.runCallback c args)
  | outbound (function : ObjectId) (args : List Parcel) :
    IsFor .outbound (Host.invoke function args)
  | source (source : String) : IsFor .source (Border.packing do
      let evaluator ← Proc.query .evaluator
      Border.evaluateWith evaluator source)
  | other {s : Scope} {α : Type} {p : Proc α} (hs : s.isCounted = false) : IsFor s p

namespace Proc

/-- What the host does by itself to make an object, out of nothing but what it makes. -/
structure IsMaking (part : Proc Obj) : Prop where
  keeps : part.Keeps .own
  below : ∀ n, part.Below n (Obj.Below n)

/-- A kind of procedures that is closed under what procedures are made of, but for
going on after a failure. -/
structure Family where
  /-- Whether a procedure is of the kind. -/
  Has : {α : Type} → Proc α → Prop
  done : ∀ {α : Type} (a : α), Has (pure a)
  fail : ∀ {α : Type} (f : Failure), Has (fail f : Proc α)
  sequence : ∀ {α β : Type} {p : Proc α} {f : α → Proc β}, Has p → (∀ a, Has (f a)) → Has (p >>= f)
  query : ∀ {α : Type} (q : Query α), Has (query q)
  change : ∀ {α : Type} (c : Change α), c.notesName = false → c.carries = false → Has (change c)
  internNow : ∀ name kind, Has (Border.internNow name kind)
  kept : ∀ {part : Proc Obj}, part.IsMaking → Has (part >>= fun o => Proc.change (.retain o))
  invoke : ∀ function args, Has (Host.invoke function args)
  evaluateText : ∀ source, Has (Host.evaluateText source)
  task : ∀ {α : Type} (t : Task α), t.isShared = false → Has (perform t)
  within : ∀ {α : Type} (s : Scope) {p : Proc α}, s.isShared = false → s.IsFor p → Has p →
    Has (within s p)

variable {F : Family} {p : Proc α} {f : α → Proc β}

theorem Family.Has.bind (hp : F.Has p) (hf : ∀ a, F.Has (f a)) : F.Has (p >>= f) :=
  F.sequence hp hf

@[simp] theorem has_bind (hp : F.Has p) (hf : ∀ a, F.Has (f a)) : F.Has (p >>= f) :=
  hp.bind hf

@[simp] theorem has_pure (a : α) : F.Has (pure a : Proc α) := F.done a

@[simp] theorem has_fail (x : Failure) : F.Has (fail x : Proc α) := F.fail x

@[simp] theorem has_query (q : Query α) : F.Has (query q) := F.query q

@[simp] theorem has_heap : F.Has heap := has_query .heap

@[simp] theorem has_ofExcept (r : Except Failure α) : F.Has (ofExcept r) := by
  cases r with
  | ok a => exact has_pure a
  | error x => exact has_fail x

@[simp] theorem has_map (hp : F.Has p) (g : α → β) : F.Has (g <$> p) := by
  rw [map_eq_pure_bind]
  exact hp.bind fun _ => has_pure _

/-- What is closed under sequences holds of a sequence of many. -/
theorem mapM_of_sequence {Has : {α : Type} → Proc α → Prop}
    (hdone : ∀ {α : Type} (a : α), Has (pure a))
    (hsequence : ∀ {α β : Type} {p : Proc α} {f : α → Proc β}, Has p → (∀ a, Has (f a)) →
      Has (p >>= f))
    {g : α → Proc β} (hg : ∀ a, Has (g a)) (as : List α) : Has (as.mapM g) := by
  induction as with
  | nil => exact hdone _
  | cons a as ih =>
    rw [List.mapM_cons]
    exact hsequence (hg a) fun b => hsequence ih fun bs => hdone _

theorem has_mapM {g : α → Proc β} (hg : ∀ a, F.Has (g a)) (as : List α) :
    F.Has (as.mapM g) := mapM_of_sequence F.done F.sequence hg as

theorem has_change {c : Change α} (hc : c.notesName = false) (hcarries : c.carries = false) :
    F.Has (change c) := F.change c hc hcarries

theorem has_task {t : Task α} (ht : t.isShared = false) : F.Has (perform t) := F.task t ht

theorem has_within {s : Scope} (hs : s.isShared = false) (hfor : s.IsFor p) (hp : F.Has p) :
    F.Has (within s p) := F.within s hs hfor hp

@[simp] theorem has_holding (hp : F.Has p) : F.Has (holding p) := has_within rfl (.other rfl) hp

@[simp] theorem has_keeping [Holds α] (hp : F.Has p) : F.Has (keeping p) :=
  (has_holding hp).bind fun _ => (has_change rfl rfl).bind fun _ => has_pure _

end Proc

namespace Host

open Proc

variable {F : Family}

/-! ### What the host does for script code -/

theorem isMaking_intern (name : String) : (change (.intern name)).IsMaking :=
  ⟨keeps_intern name, fun _ => below_intern name⟩

theorem isMaking_ofDatum (j : Json) : (ofDatum j).IsMaking :=
  ⟨keeps_ofDatum j, fun _ => below_ofDatum j⟩

theorem isMaking_marker (key : Key) : (marker key).IsMaking :=
  ⟨keeps_marker key, fun _ => below_marker key⟩

@[simp] theorem has_readDatum (text : String) : F.Has (readDatum text) := by
  unfold readDatum
  split
  · exact has_pure _
  · exact has_fail _

@[simp] theorem has_structuralForm (o : Obj) : F.Has (structuralForm o) := by
  refine has_heap.bind fun h => ?_
  split
  · exact (has_change rfl rfl).bind fun _ => has_pure _
  · exact has_pure _

@[simp] theorem has_resolve (id : ObjectId) : F.Has (resolve id) := by
  refine (has_query _).bind fun o => ?_
  split
  · exact has_pure _
  · exact has_fail _

end Host

namespace Border

open Proc

variable {F : Family}

/-! ### Symbols -/

@[simp] theorem has_refuseForbidden (name : String) :
    F.Has (refuseForbidden name) := by
  refine (has_query _).bind fun config => ?_
  split <;> simp

@[simp] theorem has_refuseForbiddenHandle (h : Handle) :
    F.Has (refuseForbiddenHandle h) := by
  refine (has_query _).bind fun name => ?_
  split <;> simp

@[simp] theorem has_internNow (name : String) (kind : SymbolKind) :
    F.Has (internNow name kind) := F.internNow name kind

@[simp] theorem has_lookup (name : String) (kind : SymbolKind) (cached : Bool) :
    F.Has (lookup name kind cached) := by
  unfold lookup
  split
  · refine (has_change rfl rfl).bind fun h => ?_
    split <;> simp
  · simp

@[simp] theorem has_symbol (name : String) : F.Has (symbol name) :=
  has_lookup name .symbol true

@[simp] theorem has_keyword (name : String) : F.Has (keyword name) :=
  has_lookup name .keyword true

/-! ### Packing -/

theorem has_adopt {part : Proc Obj} (h : part.IsMaking) : F.Has (part >>= adopt) := by
  have hrest : part >>= adopt =
      (part >>= fun o => change (.retain o)) >>= fun id => change (.adopt id) := by
    rw [bind_assoc]
    rfl
  rw [hrest]
  exact (F.kept h).bind fun _ => has_change rfl rfl

@[simp] theorem has_materialize (j : Json) : F.Has (materialize j) :=
  (has_ofExcept _).bind fun _ => (Host.has_readDatum _).bind fun j =>
    has_adopt (Host.isMaking_ofDatum j)

@[simp] theorem has_formOrFailure (h : Handle) : F.Has (formOrFailure h) := by
  refine (has_query _).bind fun o => ?_
  split
  · exact (Host.has_structuralForm _).bind fun _ => has_pure _
  · exact has_pure _

@[simp] theorem has_structuralForm (h : Handle) : F.Has (structuralForm h) := by
  simp [structuralForm]

@[simp] theorem has_wrap (v : Value) : F.Has (wrap v) := by
  refine (has_change rfl rfl).bind fun key => ?_
  split
  · exact has_adopt (Host.isMaking_marker _)
  · exact has_fail _

@[simp] theorem has_unwrap (key : Key) : F.Has (unwrap key) := by
  refine (has_change rfl rfl).bind fun v => ?_
  split <;> simp

@[simp] theorem has_packData (v : Value) : F.Has (packData v) := by
  simp [packData]

@[simp] theorem has_packNumber (key : NumberKey) (v : Value) :
    F.Has (packNumber key v) := by
  refine (has_ofExcept _).bind fun j => (has_change rfl rfl).bind fun h => ?_
  split
  · exact has_pure _
  · exact (has_materialize j).bind fun _ => (has_change rfl rfl).bind fun _ => has_pure _

@[simp] theorem has_packNumberOrData (key : NumberKey) (v : Value) :
    F.Has (packNumberOrData key v) := by
  refine (has_query _).bind fun config => ?_
  split <;> simp

@[simp] theorem has_pack (v : Value) : F.Has (pack v) := by
  unfold pack
  split
  · exact has_pure _
  · exact (has_task rfl).bind fun _ => has_pure _
  · exact has_fail _
  · split <;> simp

@[simp] theorem has_packAll (vs : List Value) : F.Has (packAll vs) :=
  has_mapM (fun v => (has_pack v).bind fun _ => has_pure _) vs

@[simp] theorem has_unpack (p : Parcel) : F.Has (unpack p) := by
  cases p with
  | data text => exact (has_ofExcept _).bind fun _ => has_pure _
  | reference id => exact (has_change rfl rfl).bind fun _ => has_pure _
  | wrapped key => exact has_unwrap key

/-! ### Calls of script code -/

@[simp] theorem has_packing {part : Proc Value} (h : F.Has part) :
    F.Has (packing part) :=
  has_holding (h.bind fun v => (has_pack v).bind fun _ => has_pure _)

@[simp] theorem has_callBack (key : Key) (c : Callable) (args : List Parcel) :
    F.Has (callBack key c args) :=
  has_within rfl (.callback key c args) (has_packing (has_keeping
    ((has_mapM has_unpack args).bind fun _ => has_task rfl)))

@[simp] theorem has_invoke (key : Key) (args : List Parcel) :
    F.Has (invoke key args) := by
  refine (has_query _).bind fun c => ?_
  split
  · simp
  · split
    · exact has_callBack _ _ _
    · split
      · exact has_callBack _ _ _
      · simp

@[simp] theorem has_evaluateWith (evaluator : Option (List Step)) (source : String) :
    F.Has (evaluateWith evaluator source) := by
  unfold evaluateWith
  split
  · exact has_task rfl
  · simp

@[simp] theorem has_evaluateSource (source : String) :
    F.Has (evaluateSource source) :=
  has_within rfl (.source source)
    (has_packing ((has_query _).bind fun _ => has_evaluateWith _ _))

/-! ### Calls of the host -/

@[simp] theorem has_callHost (function : ObjectId) (args : List Parcel) :
    F.Has (callHost function args) :=
  has_within rfl (.outbound function args) (F.invoke function args)

@[simp] theorem has_funcall (function : Handle) (args : List Value) :
    F.Has (funcall function args) :=
  (has_refuseForbiddenHandle _).bind fun _ => has_keeping ((has_packAll _).bind fun _ =>
    (has_callHost _ _).bind has_unpack)

@[simp] theorem has_call (name : String) (args : List Value) :
    F.Has (call name args) :=
  (has_refuseForbidden _).bind fun _ => has_keeping ((has_lookup _ _ _).bind fun _ =>
    has_funcall _ _)

@[simp] theorem has_list (items : List Value) : F.Has (list items) :=
  has_call "list" items

@[simp] theorem has_evaluate (form : Value) : F.Has (evaluate form) :=
  has_call "eval" [form]

/-! ### Forms -/

@[simp] theorem has_formOf (head : String) (args : List Value) :
    F.Has (formOf head args) := by
  simp [formOf]

@[simp] theorem has_quote (v : Value) : F.Has (quote v) := has_formOf "quote" [v]

@[simp] theorem has_isPair (v : Value) : F.Has (isPair v) := by
  simp [isPair]

@[simp] theorem has_isQuoted (v : Value) : F.Has (isQuoted v) :=
  has_holding ((has_call _ _).bind fun _ => (has_symbol _).bind fun _ => has_pure _)

@[simp] theorem has_quoteIfList (v : Value) : F.Has (quoteIfList v) := by
  unfold quoteIfList
  split
  · simp
  · refine (has_isPair _).bind fun b => ?_
    split
    · refine (has_isQuoted _).bind fun b => ?_
      split <;> simp
    · simp
  · simp

@[simp] theorem has_register (c : Callable) : F.Has (register c) := by
  refine (has_change rfl rfl).bind fun key => ?_
  split <;> simp

@[simp] theorem has_callingForm (c : Callable) : F.Has (callingForm c) :=
  has_keeping ((has_register c).bind fun _ => (has_symbol _).bind fun _ =>
    (has_formOf _ _).bind fun _ => (has_formOf _ _).bind fun _ => has_pure _)

@[simp] theorem has_closure (c : Callable) : F.Has (closure c) := by
  have hform : F.Has (callingForm c >>= fun form => formOf "lambda" [form.1, form.2]) :=
    (has_callingForm c).bind fun _ => has_formOf _ _
  refine has_keeping ((has_keeping hform).bind fun form =>
    (has_evaluate form).bind fun v => ?_)
  split <;> simp

@[simp] theorem has_commandForm (c : Command) : F.Has (commandForm c) := by
  cases c <;> simp [commandForm]

@[simp] theorem has_define (name : String) (c : Callable) (doc : Option String)
    (command : Option Command) : F.Has (define name c doc command) := by
  refine has_keeping ((has_symbol name).bind fun h =>
    (has_callingForm c).bind fun form => (has_symbol _).bind fun head => ?_)
  extract_lets rest
  have hrest : ∀ declaration, F.Has (rest declaration) := fun _ =>
    (has_list _).bind fun _ => (has_evaluate _).bind fun _ => has_pure _
  split
  · exact (has_commandForm _).bind fun _ => hrest _
  · exact hrest _

@[simp] theorem has_requireNullary (c : Callable) : F.Has (requireNullary c) := by
  unfold requireNullary
  split <;> simp

@[simp] theorem has_bindingForms (bindings : List (String × Value)) :
    F.Has (bindingForms bindings) := by
  induction bindings with
  | nil => simp [bindingForms]
  | cons b bindings ih =>
    exact (has_symbol _).bind fun _ => (has_keeping ((has_quoteIfList _).bind fun _ =>
      has_list _)).bind fun _ => ih.bind fun _ => has_pure _

@[simp] theorem has_bindVariables (bindings : List (String × Value)) (c : Callable) :
    F.Has (bindVariables bindings c) :=
  has_keeping ((has_ofExcept _).bind fun _ => (has_bindingForms _).bind fun _ =>
    (has_symbol _).bind fun _ => (has_quote _).bind fun _ =>
      (has_keeping ((has_symbol _).bind fun _ => (has_list _).bind fun _ =>
        (has_list _).bind fun _ => has_list _)).bind has_evaluate)

@[simp] theorem has_callForm (c : Callable) : F.Has (callForm c) :=
  has_keeping ((has_symbol _).bind fun _ => (has_quote _).bind fun _ => has_list _)

@[simp] theorem has_inBuffer (buffer : Value) (c : Callable) :
    F.Has (inBuffer buffer c) :=
  has_keeping ((has_requireNullary c).bind fun _ =>
    (has_keeping ((has_callForm c).bind fun _ => (has_symbol _).bind fun _ =>
      (has_quoteIfList _).bind fun _ => has_list _)).bind has_evaluate)

@[simp] theorem has_inTemporaryBuffer (c : Callable) :
    F.Has (inTemporaryBuffer c) :=
  has_keeping ((has_requireNullary c).bind fun _ =>
    (has_keeping ((has_callForm c).bind fun _ => (has_symbol _).bind fun _ =>
      has_list _)).bind has_evaluate)

@[simp] theorem has_specialForm (name : String) (args : List Value) :
    F.Has (specialForm name args) :=
  has_keeping ((has_symbol name).bind fun _ =>
    (has_mapM has_quoteIfList args).bind fun _ => (has_list _).bind has_evaluate)

@[simp] theorem has_putEntries (table : Value) (entries : List (Value × Value)) :
    F.Has (putEntries table entries) := by
  induction entries with
  | nil => simp [putEntries]
  | cons e entries ih => exact (has_holding (has_call _ _)).bind fun _ => ih

@[simp] theorem has_table (entries : List (Value × Value)) :
    F.Has (table entries) :=
  has_keeping ((has_keeping ((has_keyword _).bind fun _ => (has_symbol _).bind fun _ =>
    has_call _ _)).bind fun _ => (has_putEntries _ _).bind fun _ => has_pure _)

@[simp] theorem has_alist (entries : List (Value × Value)) :
    F.Has (alist entries) :=
  has_keeping ((has_mapM (fun _ => has_call _ _) entries).bind has_list)

@[simp] theorem has_keyed (entries : List (String × Value)) :
    F.Has (keyed entries) := by
  induction entries with
  | nil => simp [keyed]
  | cons e entries ih => exact (has_keyword _).bind fun _ => ih.bind fun _ => has_pure _

@[simp] theorem has_plist (entries : List (String × Value)) :
    F.Has (plist entries) :=
  has_keeping ((has_keyed entries).bind has_list)

@[simp] theorem has_vector (items : List Value) : F.Has (vector items) :=
  has_call "vector" items

/-! ### Reports -/

@[simp] theorem has_formText (h : Handle) : F.Has (formText h) := by
  refine .bind (by simp) fun form => ?_
  split <;> simp

mutual

@[simp] theorem has_describe : ∀ v : Value, F.Has (describe v)
  | .null | .bool _ | .int _ | .float _ | .text _ | .function _ | .native _ => by
    simp [describe]
  | .list items => by
    rw [describe]
    exact (has_describeAll items).bind fun _ => has_pure _
  | .object fields => by
    rw [describe]
    exact (has_describeFields fields).bind fun _ => has_pure _
  | .handle h => by simp [describe]

theorem has_describeAll : ∀ vs : List Value, F.Has (describeAll vs)
  | [] => by simp [describeAll]
  | v :: vs => by
    rw [describeAll]
    exact (has_describe v).bind fun _ => (has_describeAll vs).bind fun _ => has_pure _

theorem has_describeFields :
    ∀ fs : List (String × Value), F.Has (describeFields fs)
  | [] => by simp [describeFields]
  | (_, v) :: fs => by
    rw [describeFields]
    exact (has_describe v).bind fun _ => (has_describeFields fs).bind fun _ => has_pure _

end

end Border

namespace Script

open Proc

variable {F : Family}

/-! ### Steps of script code -/

@[simp] theorem has_makeFunction (f : FunctionForm) : F.Has (makeFunction f) :=
  (has_change rfl rfl).bind fun _ => has_pure _

mutual

@[simp] theorem has_operand (args : List Value) :
    ∀ o : Operand, F.Has (operand args o)
  | .null | .bool _ | .int _ | .float _ | .text _ | .argument _ | .arguments | .native _
  | .symbol _ | .keyword _ | .function _ => by simp [operand]
  | .variable name => by
    rw [operand]
    exact (has_change rfl rfl).bind fun _ => has_pure _
  | .list items => by
    rw [operand]
    exact (has_operands args items).bind fun _ => has_pure _
  | .object fields => by
    rw [operand]
    exact (has_operandFields args fields).bind fun _ => has_pure _

@[simp] theorem has_operands (args : List Value) :
    ∀ os : List Operand, F.Has (operands args os)
  | [] => by simp [operands]
  | o :: os => by
    rw [operands]
    exact (has_operand args o).bind fun _ => (has_operands args os).bind fun _ => has_pure _

@[simp] theorem has_operandFields (args : List Value) :
    ∀ fs : List (String × Operand), F.Has (operandFields args fs)
  | [] => by simp [operandFields]
  | (_, o) :: fs => by
    rw [operandFields]
    exact (has_operand args o).bind fun _ =>
      (has_operandFields args fs).bind fun _ => has_pure _

end

@[simp] theorem has_operandPairs (args : List Value) :
    ∀ ps : List (Operand × Operand), F.Has (operandPairs args ps)
  | [] => by simp [operandPairs]
  | (a, b) :: ps => by
    rw [operandPairs]
    exact (has_operand args a).bind fun _ => (has_operand args b).bind fun _ =>
      (has_operandPairs args ps).bind fun _ => has_pure _

@[simp] theorem has_forget (names : List String) : F.Has (forget names) := by
  induction names with
  | nil => simp [forget]
  | cons name names ih => exact (has_change rfl rfl).bind fun _ => ih

theorem has_withHandle {next : Handle → Proc α} (h : ∀ x, F.Has (next x)) (v : Value) :
    F.Has (withHandle v next) := by
  cases v with
  | handle x => exact h x
  | _ => exact has_fail _

theorem has_giving {part : Proc Value} (h : F.Has part) :
    F.Has (giving part) := h.bind fun _ => has_pure _

theorem has_givingHandle {part : Proc Handle} (h : F.Has part) :
    F.Has (givingHandle part) := h.bind fun _ => has_pure _

theorem has_reporting {part : Proc Answer} (h : F.Has part) :
    F.Has (reporting part) := h.bind fun _ => has_pure _

theorem has_reportingChange {c : Change α} (hc : c.notesName = false)
    (hcarries : c.carries = false) (report : α → Answer) : F.Has (reportingChange c report) :=
  (has_change hc hcarries).bind fun _ => has_pure _

theorem has_reportingQuery (q : Query α) (report : α → Answer) :
    F.Has (reportingQuery q report) := (has_query q).bind fun _ => has_pure _

theorem has_keep {part : Proc Obj} (h : part.IsMaking) : F.Has (keep part) := by
  have hrest : keep part =
      (part >>= fun o => change (.retain o)) >>= fun id => pure (.reference id) := by
    rw [bind_assoc]
    rfl
  rw [hrest]
  exact (F.kept h).bind fun _ => has_pure _

theorem isMaking_readObject (text : String) : (readObject text).IsMaking where
  keeps := (Host.keeps_readDatum text).bind Host.keeps_ofDatum
  below n := by
    refine Below.bind (Q := fun _ => True) ?_ fun j _ => Host.below_ofDatum j
    unfold Host.readDatum
    split <;> trivial

theorem has_advance (ms : Nat) : F.Has (advance ms) := by
  refine (has_change rfl rfl).bind fun due => ?_
  split
  · exact (has_change rfl rfl).bind fun _ => has_pure _
  · exact has_pure _

theorem has_startSweeper : F.Has startSweeper := by
  refine (has_query _).bind fun config => ?_
  split
  · exact (has_change rfl rfl).bind fun _ => has_pure _
  · exact has_pure _

end Script

/-- Whether a step is the one that goes on after a failure. -/
def Deed.recovers : Deed → Bool
  | .attempt _ => true
  | _ => false

namespace Script

open Proc

variable {F : Family}

/-- What a step does is of the kind, the step apart that goes on after a failure. -/
theorem has_perform (args : List Value) {deed : Deed}
    (hdeed : deed.recovers = true → F.Has (perform args deed)) : F.Has (perform args deed) := by
  cases deed with
  | attempt steps => exact hdeed rfl
  | value v => exact has_giving (has_operand args v)
  | drop names => exact (has_forget names).bind fun _ => has_pure _
  | same a b =>
    exact (has_operand args a).bind fun _ => (has_operand args b).bind fun _ => has_pure _
  | inspect v | arity v counts => exact (has_operand args v).bind fun _ => has_pure _
  | raise message => exact has_fail _
  | call name os =>
    exact (has_operands args os).bind fun _ => has_giving (Border.has_call _ _)
  | funcall f os =>
    exact (has_operand args f).bind fun f => (has_operands args os).bind fun _ =>
      has_giving (has_withHandle (fun h => Border.has_funcall h _) f)
  | lookup name kind cached => exact has_givingHandle (Border.has_lookup _ _ _)
  | materialize text =>
    exact (has_ofExcept _).bind fun j => has_givingHandle (Border.has_materialize j)
  | form h =>
    exact (has_operand args h).bind fun h =>
      (has_withHandle Border.has_structuralForm h).bind fun _ => has_pure _
  | wrap v =>
    exact (has_operand args v).bind fun v => has_givingHandle (Border.has_wrap v)
  | unwrap key => exact has_giving (Border.has_unwrap key)
  | pack v =>
    exact (has_operand args v).bind fun v => (Border.has_pack v).bind fun _ => has_pure _
  | unpack p => exact has_giving (Border.has_unpack p)
  | config | stats | hostRetains _ | hostBatches => exact has_reportingQuery _ _
  | invoke key ps => exact has_reporting (has_map (Border.has_invoke key ps) _)
  | clearCallback _ | clearProxy _ | sweep | setEvaluator _ | hostUnintern _ | hostRelease _ =>
    exact has_reportingChange rfl rfl _
  | evaluateSource source =>
    exact has_reporting (has_map (Border.has_evaluateSource source) _)
  | list os =>
    exact (has_operands args os).bind fun vs => has_giving (Border.has_list vs)
  | quote v =>
    exact (has_operand args v).bind fun v => has_giving (Border.has_quote v)
  | evaluate v =>
    exact (has_operand args v).bind fun v => has_giving (Border.has_evaluate v)
  | define name f doc command =>
    exact (has_makeFunction f).bind fun _ =>
      has_givingHandle (Border.has_define _ _ _ _)
  | bindVariables bindings f =>
    exact (has_operandFields args bindings).bind fun _ => (has_makeFunction f).bind fun _ =>
      has_giving (Border.has_bindVariables _ _)
  | inBuffer buffer f =>
    exact (has_operand args buffer).bind fun _ => (has_makeFunction f).bind fun _ =>
      has_giving (Border.has_inBuffer _ _)
  | inTemporaryBuffer f =>
    exact (has_makeFunction f).bind fun c => has_giving (Border.has_inTemporaryBuffer c)
  | specialForm head os =>
    exact (has_operands args os).bind fun _ => has_giving (Border.has_specialForm _ _)
  | vector os =>
    exact (has_operands args os).bind fun vs => has_giving (Border.has_vector vs)
  | table entries =>
    exact (has_operandPairs args entries).bind fun vs => has_giving (Border.has_table vs)
  | alist entries =>
    exact (has_operandPairs args entries).bind fun vs => has_giving (Border.has_alist vs)
  | plist entries =>
    exact (has_operandFields args entries).bind fun vs => has_giving (Border.has_plist vs)
  | hostText text => exact has_givingHandle (Border.has_materialize _)
  | runSource source =>
    exact (F.evaluateText source).bind fun o => has_reporting (has_map
      (has_heap.bind fun _ => (Host.has_structuralForm o).bind fun _ => has_pure _) _)
  | hostValue name =>
    exact has_reporting (has_map
      (has_heap.bind fun _ => (has_query _).bind fun _ => has_pure _) _)
  | hostBuffer name =>
    exact has_reporting (has_map (has_heap.bind fun _ => has_pure _) _)
  | hostForm id =>
    exact has_reporting (has_map ((Host.has_resolve id).bind fun o =>
      (Host.has_structuralForm o).bind fun _ => has_pure _) _)
  | hostIntern name => exact has_reporting (has_keep (Host.isMaking_intern name))
  | hostMaterialize text => exact has_reporting (has_keep (isMaking_readObject text))
  | hostMarker key => exact has_reporting (has_keep (Host.isMaking_marker key))
  | hostInvoke function ps => exact has_reporting (has_map (F.invoke function ps) _)
  | startSweeper => exact has_reporting (has_map has_startSweeper _)
  | advance ms => exact (has_advance ms).bind fun _ => has_reportingQuery _ _

theorem has_describe (r : Outcome) : F.Has (describe r) := by
  cases r with
  | value v => exact has_map (Border.has_describe v) _
  | answer a => exact has_pure _

theorem has_log (r : Outcome) : F.Has (log r) := (has_describe r).bind fun _ => has_change rfl rfl

theorem has_store (name : String) (r : Outcome) : F.Has (store name r) := by
  cases r with
  | value v => exact has_change rfl rfl
  | answer a => exact has_pure _

/-- So is what follows a step. -/
theorem has_playStep (args : List Value) {deed : Deed}
    (hdeed : deed.recovers = true → F.Has (perform args deed)) (target : Option String)
    (logged : Bool) :
    F.Has (playStep args (.mk deed target logged)) := by
  refine (has_keeping (has_perform args hdeed)).bind fun r => ?_
  extract_lets afterwards rest
  have hrest : ∀ u, F.Has (rest u) := by
    intro u
    cases target with
    | some name => exact (has_store name r).bind fun _ => has_pure _
    | none => exact has_pure _
  cases logged with
  | true => exact (has_log r).bind hrest
  | false => exact hrest ()

theorem has_play (args : List Value) (steps : List Step) : F.Has (play args steps) := by
  induction steps with
  | nil => exact has_pure _
  | cons s steps ih =>
    cases steps with
    | nil => exact (has_task rfl).bind fun _ => has_pure _
    | cons s' steps => exact (has_holding (has_task rfl)).bind fun _ => ih

end Script

/-! ### What the host does by itself -/

namespace Proc

/-- A kind of procedures that is closed under what procedures are made of, but for going on
after a failure, and that what the host does by itself is of. -/
structure HostFamily where
  /-- Whether a procedure is of the kind. -/
  Has : {α : Type} → Proc α → Prop
  host : ∀ {α : Type} {p : Proc α}, p.Keeps .own → Has p
  sequence : ∀ {α β : Type} {p : Proc α} {f : α → Proc β}, Has p → (∀ a, Has (f a)) → Has (p >>= f)
  query : ∀ {α : Type} (q : Query α), Has (query q)
  change : ∀ {α : Type} (c : Change α), c.notesName = false → Has (change c)
  internNow : ∀ name kind, Has (Border.internNow name kind)
  task : ∀ {α : Type} (t : Task α), Has (perform t)
  within : ∀ {α : Type} (s : Scope) {p : Proc α}, s.IsFor p → Has p → Has (within s p)

variable {F : HostFamily} {p : Proc α} {f : α → Proc β}

theorem HostFamily.Has.bind (hp : F.Has p) (hf : ∀ a, F.Has (f a)) : F.Has (p >>= f) :=
  F.sequence hp hf

theorem HostFamily.heap (F : HostFamily) : F.Has heap := F.query .heap

theorem HostFamily.done (F : HostFamily) (a : α) : F.Has (pure a) := F.host (keeps_pure a)

theorem HostFamily.fail (F : HostFamily) (x : Failure) : F.Has (fail x : Proc α) :=
  F.host (keeps_fail x)

end Proc

namespace Proc.HostFamily

open Host

variable (F : HostFamily)

theorem refer (o : Obj) : F.Has (Host.refer o) :=
  (F.change (.retain o) rfl).bind fun _ => F.done _

theorem wrapped (h : Heap) (o : Obj) : F.Has (wrapped? h o) := by
  unfold wrapped?
  split
  · exact (F.change (.intern markerName) rfl).bind fun _ => F.done _
  · exact F.done _

theorem send (o : Obj) : F.Has (Host.send o) := by
  refine F.heap.bind fun h => ?_
  -- objects that are data need nothing but to be looked at
  split
  · exact F.done _
  · exact F.done _
  · split
    · exact F.done _
    · exact F.refer o
  · exact F.done _
  · split
    · refine (F.host keeps_truth).bind fun t => ?_
      split
      · exact F.done _
      · exact F.refer o
    · exact F.refer o
  · refine (F.wrapped _ _).bind fun key => ?_
    split
    · exact F.done _
    · exact F.refer o
  · exact F.refer o

theorem resolve (id : ObjectId) : F.Has (Host.resolve id) := by
  refine (F.query _).bind fun o => ?_
  split
  · exact F.done _
  · exact F.fail _

theorem receive (p : Parcel) : F.Has (Host.receive p) := by
  cases p with
  | data text => exact (F.host (keeps_readDatum text)).bind fun j => F.host (keeps_ofDatum j)
  | reference id => exact F.resolve id
  | wrapped key => exact F.host (keeps_marker key)

theorem invoke (function : ObjectId) (args : List Parcel) : F.Has (Host.invoke function args) :=
  (F.resolve _).bind fun _ =>
    Has.bind (mapM_of_sequence F.done F.sequence F.receive args) fun _ =>
      (F.task _).bind F.send

end Proc.HostFamily

namespace Proc

/-- What the host does by itself is what it does for script code. -/
def HostFamily.toFamily (F : HostFamily) : Family where
  Has := F.Has
  done := F.done
  fail := F.fail
  sequence := F.sequence
  query := F.query
  change c hc _ := F.change c hc
  internNow := F.internNow
  kept hpart := F.sequence (F.host hpart.keeps) fun _ => F.change _ rfl
  invoke := F.invoke
  evaluateText source := F.host (Host.keeps_evaluateText source)
  task t _ := F.task t
  within s _ _ := F.within s

end Proc

/-! ### Builtins -/

theorem Builtin.has_run (F : Proc.HostFamily) (b : Builtin) (args : List Obj) :
    F.Has (b.run args) := by
  have hexchange : b.isExchange = true → F.Has (b.compute args) := by
    intro hb
    -- five functions of the host go over to script code, and the others stay on the host
    cases b with
    | reenter =>
      exact F.heap.bind fun _ => (F.host (Host.keeps_check _)).bind fun _ =>
        (F.host (Host.keeps_check _)).bind fun objects =>
        Proc.HostFamily.Has.bind (Proc.mapM_of_sequence F.done F.sequence F.send objects)
          fun _ => Proc.HostFamily.Has.bind (Border.has_invoke (F := F.toFamily) _ _)
            F.receive
    | clearProxy =>
      exact F.heap.bind fun _ => (F.host (Host.keeps_check _)).bind fun _ =>
        (F.change _ rfl).bind fun _ => F.host Host.keeps_truth
    | collect => exact (F.change _ rfl).bind fun _ => F.done _
    | evaluateScript =>
      exact F.heap.bind fun _ => (F.host (Host.keeps_check _)).bind fun _ =>
        Proc.HostFamily.Has.bind (Border.has_evaluateSource (F := F.toFamily) _)
          F.receive
    | _ => cases hb
  unfold run
  split
  · cases hb : b.isExchange with
    | false => exact F.host (b.keeps_compute hb args)
    | true => exact hexchange hb
  · exact F.fail _

/-! ### Tasks and sessions -/

/-- A kind of procedures that is closed under all that procedures are made of, so that tasks
and sessions are of it. -/
structure Proc.TaskFamily extends Proc.HostFamily where
  shared : ∀ {α : Type} {p : Proc α}, p.Keeps .shared → Has p
  outcome : ∀ {α : Type} {part : Proc α}, Has part → Has (outcome part)

section Tasks

variable (F : Proc.TaskFamily)

theorem Host.has_applyFunction (o : Obj) (args : List Obj) : F.Has (applyFunction o args) := by
  refine F.heap.bind fun h => ?_
  split
  · exact Builtin.has_run F.toHostFamily _ args
  · exact F.shared (keeps_callClosure _ args)
  · exact F.fail _

theorem Host.has_application (o : Obj) (args : List Obj) : F.Has (application o args) := by
  have hfunction : F.Has (functionOf o) := F.shared (keeps_functionOf o)
  refine F.heap.bind fun h => ?_
  split
  · exact F.sequence hfunction fun f => has_applyFunction F f args
  · exact F.sequence hfunction fun f => has_applyFunction F f args
  · exact has_applyFunction F o args

/-- The step that goes on after a failure plays its steps as a task. -/
theorem Script.has_attempt (args : List Value) {deed : Deed} (hdeed : deed.recovers = true) :
    F.Has (perform args deed) := by
  cases deed with
  | attempt steps =>
    refine F.sequence ?_ fun v => F.done _
    refine F.sequence (F.outcome (F.task _)) fun r => ?_
    cases r with
    | ok v => exact F.done _
    | error f => exact F.done _
  | _ => cases hdeed

/-- What tasks do is of the kind. -/
theorem Task.has_body (t : Task α) : F.Has t.body := by
  cases t with
  | evaluate form => exact F.shared (Host.keeps_evaluation rfl form)
  | apply function args => exact Host.has_application F function args
  | close c => exact Border.has_closure (F := F.toFamily) c
  | play steps args => exact Script.has_play (F := F.toFamily) args steps
  | step s args =>
    obtain ⟨deed, target, logged⟩ := s
    exact Script.has_playStep (F := F.toFamily) args (Script.has_attempt F args) target logged

/-- What sessions do is of the kind. -/
theorem Transcript.has_start (config : Config) (steps : List Step) :
    F.Has (start config steps).proc := by
  refine Proc.has_mapM (F := F.toFamily) (fun s => ?_) steps
  refine F.sequence (F.outcome ?_) fun r => F.sequence (F.change _ rfl) fun log => F.done _
  exact Proc.has_holding (F := F.toFamily) (F.sequence (F.task _) fun r =>
    Script.has_describe (F := F.toFamily) r)

end Tasks

end Crossing
