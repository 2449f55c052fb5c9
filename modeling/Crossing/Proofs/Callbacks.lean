import Crossing.Proofs.Functions
import Crossing.Proofs.Passages
import Crossing.Proofs.WrappedValues
import Crossing.Proofs.Wrappings

/-!
# Callbacks

The host applies a closure that calls a script function. The closure binds its variable to the
list of its arguments and evaluates a call that names the script function by its key, and the
arguments cross to the script function.

- `Host.leads_evaluate_call`: the evaluation of a call whose arguments are literals;
- `Host.wraps_evaluate_special`, `Host.enters_evaluate_special`: that of a special form;
- `World.Revalues`: worlds that differ in the values of variables;
- `World.IsCalling`: only the variable for the arguments of calls has got a value;
- `Border.Runs`: a procedure runs the body of a script function with some values;
- `Host.leads_apply_closure`: applying the closure of a script function has that run by its key;
- `Host.enters_apply_closure`: it runs the function if nothing is in the way of that.
-/

namespace Crossing

open Proc

variable {α β : Type} {w w₁ w₂ : World} {c : Callable} {f : CallForm} {a s : Addr} {o form : Obj}
  {os : List Obj} {name : String}

/-! ### Evaluating calls -/

/-- What is named like a builtin that is offered is the symbol that has it as its function. -/
theorem World.Offers.exists_of_names {b : Builtin} {x : Obj} (h : w.Offers b)
    (hx : w.host.heap.Names x b.name) : ∃ a f value, x = .ref a ∧
      w.host.heap.get? a = some (.symbol b.name value (some (.ref f))) ∧
      w.host.heap.get? f = some (.builtin b) := by
  obtain ⟨hnil, -⟩ | ⟨a, value, fn, rfl, ha⟩ := hx
  · exact absurd hnil b.name_ne_nil
  obtain ⟨a', value', f, hfind, ha', hf⟩ := h.function
  obtain rfl := Option.some.inj (hfind.symm.trans (h.sole a value fn ha))
  exact ⟨a', f, value', rfl, ha', hf⟩

/-- The function that the form of a call form calls is the builtin for that. -/
def CallForm.Calls (f : CallForm) (h : Heap) : Prop :=
  ∃ value g, h.get? f.reenter = some (.symbol reenterName value (some (.ref g))) ∧
    h.get? g = some (.builtin .reenter)

/-- A form that calls a callback does so as the heap grows. -/
theorem CallForm.Calls.growsTo {h h₁ : Heap} (hf : f.Calls h) (hg : h.GrowsTo h₁) :
    f.Calls h₁ := by
  obtain ⟨value, g, hm, hb⟩ := hf
  exact ⟨value, g, hg.cell hm, hg.cell hb⟩

/-- So it is if the builtin is offered. -/
theorem World.Offers.calls (h : w.Offers .reenter) (hf : f.StandsAt w.host.heap a) :
    f.Calls w.host.heap := by
  obtain ⟨m, g, value, hsame, hm, hg⟩ := h.exists_of_names hf.reenter
  obtain rfl := Obj.ref.inj hsame
  exact ⟨value, g, hm, hg⟩

/-- The host applies an object as the closure at an address: that closure, or a symbol whose
function it is. -/
def World.AppliesAs (w : World) (o : Obj) (a : Addr) : Prop :=
  o = .ref a ∨ ∃ s name value, o = .ref s ∧
    w.host.heap.get? s = some (.symbol name value (some (.ref a)))

namespace Host

variable {Q : Proc β → World → Prop} {S S' : Upshot Obj β} {b : Builtin}

/-- A function of the host that is applied runs. -/
theorem leads_applyFunction_builtin (ha : w.host.heap.get? a = some (.builtin b))
    (os : List Obj) : (applyFunction (.ref a) os).Leads w (b.run os) w fun _ w => w := by
  refine (leads_query_bind .heap _ w).trans ?_
  simp only [Query.ask, Heap.shape_ref ha]
  exact leads_refl _ w

/-- A closure that is applied is called. -/
theorem leads_applyFunction_closure {l : Lambda} (ha : w.host.heap.get? a = some (.closure l))
    (os : List Obj) : (applyFunction (.ref a) os).Leads w (callClosure l os) w fun _ w => w := by
  refine (leads_query_bind .heap _ w).trans ?_
  simp only [Query.ask, Heap.shape_ref ha]
  exact leads_refl _ w

/-- Applying a builtin is running it. -/
theorem leads_application_builtin (ha : w.host.heap.get? a = some (.builtin b)) (os : List Obj) :
    (application (.ref a) os).Leads w (b.run os) w fun _ w => w := by
  refine (leads_query_bind .heap _ w).trans ?_
  simp only [Query.ask, Heap.shape_ref ha]
  exact leads_applyFunction_builtin ha os

/-- Applying a symbol is applying its function. -/
theorem leads_application_symbol {value : Option Obj} {fn : Obj}
    (hs : w.host.heap.get? s = some (.symbol name value (some fn))) (os : List Obj) :
    (application (.ref s) os).Leads w (applyFunction fn os) w fun _ w => w := by
  refine (leads_query_bind .heap _ w).trans ?_
  simp only [Query.ask, Heap.shape_ref hs, functionOf, heap, bind_assoc]
  refine (leads_query_bind .heap _ w).trans ?_
  simp only [Query.ask, Heap.shape_ref hs, pure_bind]
  exact leads_refl _ w

/-- Applying what is applied as a closure is doing what that says. -/
theorem leads_application_closure {l : Lambda} (ho : w.AppliesAs o a)
    (ha : w.host.heap.get? a = some (.closure l)) (os : List Obj) :
    (application o os).Leads w (callClosure l os) w fun _ w => w := by
  obtain rfl | ⟨s, name, value, rfl, hs⟩ := ho
  · refine (leads_query_bind .heap _ w).trans ?_
    simp only [Query.ask, Heap.shape_ref ha]
    exact leads_applyFunction_closure ha os
  · exact (leads_application_symbol hs os).trans (leads_applyFunction_closure ha os)

/-- Literals are evaluated one after the other, and leave everything as it is. -/
theorem comes_evaluateAll {args rs : List Obj} (hdepth : w.host.depth < maxDepth)
    (hargs : List.Forall₂ (fun o r => w.host.heap.literal? o = some r) args rs) :
    Comes w.scene (args.mapM evaluate) w (.ok rs) w := by
  induction hargs with
  | nil => exact .done rfl
  | cons hr _ ih =>
    rw [List.mapM_cons]
    exact (comes_evaluate_literal hdepth hr).bind (ih.bind (.done rfl))

/-- The evaluation of a call leads to the application of the function to what its arguments are
literals for. -/
theorem leads_evaluate_call {value : Option Obj} {fn : Obj} {args rs : List Obj}
    (hdepth : w.host.depth + 1 < maxDepth)
    (hlist : w.host.heap.list? form = some (.ref s :: args))
    (hs : w.host.heap.get? s = some (.symbol name value (some fn)))
    (hspecial : SpecialForm.ofName? name = none)
    (hargs : List.Forall₂ (fun o r => w.host.heap.literal? o = some r) args rs) :
    (evaluate form).Leads w (application fn rs) w.deeper fun _ w => w.shallower := by
  refine Leads.perform rfl (Leads.within (World.enter_evaluation (by omega)) rfl
    (fun _ => rfl) (g := fun _ w => w) ?_)
  obtain ⟨p, tail, rfl, hpair, htail⟩ := Heap.exists_pair_of_list? hlist
  have hnone : specialForm? w.host.heap (.ref s) = none := by
    rw [specialForm?, Heap.symbolName?, Heap.shape_ref hs]
    exact hspecial
  -- the form is a list and no special form
  refine (leads_query_bind .heap _ _).trans ?_
  simp only [Query.ask, World.heap_deeper, Heap.shape_ref hpair]
  refine (leads_query_bind .heap _ _).trans ?_
  simp only [Query.ask, World.heap_deeper, htail, hnone]
  have hfunction : Comes w.deeper.scene (functionOf (.ref s)) w.deeper (.ok fn) w.deeper := by
    refine comes_query_bind rfl ?_
    simp only [Query.ask, World.heap_deeper, Heap.shape_ref hs]
    exact .done rfl
  have hvalues := comes_evaluateAll (w := w.deeper) hdepth hargs
  exact hfunction.leads_bind (hvalues.leads_bind (Leads.perform rfl (leads_refl _ _)))

end Host

/-! ### Evaluating special forms -/

namespace Host

variable {k : SpecialForm} {x : Obj} {args : List Obj} {q : Proc β} {Q : Proc β → World → Prop}
  {R S : Upshot Obj β}

/-- The evaluation of a special form comes to what the rule of the form does. -/
theorem turns_special (hlist : w.host.heap.list? form = some (x :: args))
    (hname : w.host.heap.Names x k.name) : (valueOf form).Turns w (k.run args) w := by
  obtain ⟨a, tail, rfl, hpair, htail⟩ := Heap.exists_pair_of_list? hlist
  have hnil : k.name ≠ "nil" := by cases k <;> decide
  have hspecial : specialForm? w.host.heap x = some k := by
    rw [specialForm?, hname.symbolName? hnil]
    cases k <;> rfl
  refine (turns_query_bind .heap _ w).trans ?_
  simp only [Query.ask, Heap.shape_ref hpair]
  refine (turns_query_bind .heap _ w).trans ?_
  simp only [Query.ask, htail, hspecial]
  exact .refl _ _

/-- What the rule of a special form wraps, the evaluation of the form wraps. -/
theorem wraps_evaluate_special (hdepth : w.host.depth < maxDepth)
    (hlist : w.host.heap.list? form = some (x :: args)) (hname : w.host.heap.Names x k.name)
    (h : (k.run args).Wraps w.deeper q w₁ R)
    (hS : ∀ r w₂ s w₃, R r w₂ s w₃ → S r w₂ s w₃.shallower) :
    (evaluate form).Wraps w q w₁ S := by
  have hvalue := (turns_special (w := w.deeper) hlist hname).wraps h
  exact Wraps.perform rfl (hvalue.within (World.enter_evaluation hdepth) hS)

/-- What the rule of a special form enters, the evaluation of the form enters. -/
theorem enters_evaluate_special (hdepth : w.host.depth < maxDepth)
    (hlist : w.host.heap.list? form = some (x :: args)) (hname : w.host.heap.Names x k.name)
    (h : (k.run args).Enters w.deeper Q R)
    (hS : ∀ r w₂ s w₃, R r w₂ s w₃ → S r w₂ s w₃.shallower) : (evaluate form).Enters w Q S := by
  have hvalue := (turns_special (w := w.deeper) hlist hname).enters h
  exact enters_perform rfl (enters_within (World.enter_evaluation hdepth) hvalue
    fun r w₂ s w₃ _ => hS r w₂ s w₃)

end Host

/-! ### Worlds that differ in values -/

/-- Worlds differ in the values of variables, and in what is current or in progress. -/
structure World.Revalues (w w₁ : World) : Prop where
  heap : w.host.heap.Revalues w₁.host.heap
  symbols : w₁.host.symbols = w.host.symbols
  config : w₁.border.config = w.border.config

namespace World.Revalues

/-- To set values is no matter of the table of symbols. -/
theorem find? (hr : w.Revalues w₁) (name : String) : w₁.host.find? name = w.host.find? name := by
  rw [Interpreter.find?, Interpreter.find?, hr.symbols]

/-- A sole name stays sole as values are set. -/
theorem sole (hr : w.Revalues w₁) (h : w.host.IsSole name) : w₁.host.IsSole name := by
  intro a value function ha
  obtain ⟨value', ha'⟩ := hr.heap.symm.symbol ha
  rw [hr.find?]
  exact h a value' function ha'

/-- The functions that are offered stay so as values are set. -/
theorem offers {b : Builtin} (hr : w.Revalues w₁) (h : w.Offers b) : w₁.Offers b where
  function := by
    obtain ⟨a, value, f, hfind, ha, hf⟩ := h.function
    obtain ⟨value', ha'⟩ := hr.heap.symbol ha
    exact ⟨a, value', f, (hr.find? b.name).trans hfind, ha', hr.heap.get? hf rfl⟩
  sole := hr.sole h.sole
  allowed := by rw [hr.config, h.allowed]

end World.Revalues

theorem World.revalues_deeper (w : World) : w.Revalues w.deeper := ⟨fun _ => rfl, rfl, rfl⟩

/-- Entering a scope that binds symbols gives them values. -/
theorem World.enter_binding (w : World) (ts : List (Addr × Obj)) : (Scope.binding ts).enter w =
    .ok (.restore (w.host.heap.bind ts []).1, w.bound ts) := rfl

/-! ### Running script functions -/

namespace Border

/-- A procedure runs a script function: it takes values in and starts the body of the function
with them, where `P` holds, and then packs what the body gives. -/
def Runs (c : Callable) (P : List Value → World → Prop) (q : Proc Parcel) (w : World) : Prop :=
  ∃ ps, q = runCallback c ps ∧ ∃ vs w₁, P vs w₁ ∧ q.Starts w (.play c.body vs) w₁

theorem Runs.mono {P P' : List Value → World → Prop} {q : Proc Parcel} (h : Runs c P q w)
    (hP : ∀ vs w₁, P vs w₁ → P' vs w₁) : Runs c P' q w := by
  obtain ⟨ps, hq, vs, w₁, hvs, hstarts⟩ := h
  exact ⟨ps, hq, vs, w₁, hP vs w₁ hvs, hstarts⟩

/-- The arguments are taken in, and then the body starts. -/
theorem runs_of_succeeds {P : List Value → World → Prop} {ps : List Parcel}
    (hdue : (runCallback c ps).IsDue w) (hps : (ps.mapM unpack).Succeeds w P) :
    Runs c P (runCallback c ps) w := by
  have hpart : (keeping (ps.mapM unpack >>= play c.body)).IsDue w := (hdue.within rfl).bind_left
  obtain ⟨r, w₁, hcomes, vs, rfl, -, hP⟩ := hps (hpart.bind_left.within rfl).bind_left
  refine ⟨ps, rfl, vs, w₁, hP, ?_⟩
  have hplay : (ps.mapM unpack >>= play c.body).Starts w (.play c.body vs) w₁ :=
    hcomes.starts_bind (starts_perform _ w₁)
  have hkept : (keeping (ps.mapM unpack >>= play c.body)).Starts w (.play c.body vs) w₁ :=
    Starts.bind (Starts.within (s := .holding) rfl hplay) _
  exact Starts.within (s := .holding) rfl (Starts.bind hkept _)

end Border

namespace World

/-- Everything is as it was, but that the variable for the arguments of calls may have another
value and that things have been added. -/
structure IsCalling (w w₁ : World) : Prop where
  cell : ∀ {a d}, w.host.heap.get? a = some d → w₁.host.heap.get? a = some d ∨
    ∃ value value' function, d = .symbol argumentsName value function ∧
      w₁.host.heap.get? a = some (.symbol argumentsName value' function)
  current : w₁.host.current = w.host.current
  names : ∀ {name a}, w.host.find? name = some a → w₁.host.find? name = some a
  registered : ∀ {key c}, w.border.callbacks.get? key = some c →
    w₁.border.callbacks.get? key = some c
  passage : ∀ o, w.host.heap.known o = o → w₁.passage o = w.passage o

/-- A callback is in progress. -/
def running (w : World) (call : PendingCall) : World :=
  { w with border := { w.border with pending := call :: w.border.pending } }

theorem known_bound (ts : List (Addr × Obj)) (ho : w.host.heap.known o = o) :
    (w.bound ts).host.heap.known o = o := by
  have hsize : (w.bound ts).host.heap.size = w.host.heap.size :=
    (w.host.heap.revalues_bind ts).size_eq
  cases o with
  | ref b => rwa [Heap.known, hsize]
  | _ => rfl

theorem passage_deeper (w : World) (o : Obj) : w.deeper.passage o = w.passage o :=
  passage_of_revalues (w.revalues_deeper).heap rfl o

theorem isCalling_deeper (w : World) : w.IsCalling w.deeper :=
  ⟨.inl, rfl, fun h => h, fun h => h, fun o _ => w.passage_deeper o⟩

/-- A call that the border counts is a call of the host. -/
theorem isCalling_running (w : World) (call : PendingCall) : w.IsCalling (w.running call) :=
  ⟨.inl, rfl, fun h => h, fun h => h, fun _ _ => rfl⟩

/-- What sustains a world is a call away from it, if nothing dangles. -/
theorem Sustains.isCalling (hs : w.Sustains w₁) (hclosed : w.host.IsClosed) : w.IsCalling w₁ where
  cell hd := .inl (hs.grown.host.heap.cell hd)
  current := hs.grown.current
  names := hs.grown.host.names
  registered := hs.grown.registered
  passage _ ho := hs.grown.passage_of_known hclosed ho

/-- The variable for the arguments of calls has got a value. -/
theorem isCalling_bound {p : Addr} (hp : w.host.heap.Names (.ref p) argumentsName) (items : Obj) :
    w.IsCalling (w.bound [(p, items)]) := by
  refine ⟨fun {a d} hd => ?_, rfl, fun h => h, fun h => h, fun o _ => w.passage_bound _ o⟩
  by_cases ha : a = p
  · subst ha
    obtain ⟨hnil, -⟩ | ⟨b, value, function, heq, hb⟩ := hp
    · exact absurd hnil (by decide)
    cases heq
    obtain rfl := Option.some.inj (hb.symm.trans hd)
    exact .inr ⟨value, some items, function, rfl,
      Heap.get?_bind_of_mem (List.pairwise_singleton _ _) List.mem_cons_self hb⟩
  · refine .inl ((Heap.get?_bind_of_notMem ?_).trans hd)
    rwa [List.map_singleton, List.mem_singleton]

namespace IsCalling

/-- Whatever is to be spared, the heap has only gone on. -/
theorem develops (h : w.IsCalling w₁) (spared : List Addr) :
    w.host.heap.Develops spared w₁.host.heap := by
  refine ⟨fun {a d} hd => ?_⟩
  obtain hd₁ | ⟨value, value', function, rfl, hd₁⟩ := h.cell hd
  · exact ⟨d, hd₁, rfl⟩
  · exact ⟨_, hd₁, rfl⟩

theorem known (h : w.IsCalling w₁) (ho : w.host.heap.known o = o) : w₁.host.heap.known o = o := by
  cases o with
  | ref b =>
    obtain ⟨d, hd⟩ := Heap.exists_get?_of_known ho
    obtain ⟨d₁, hd₁, -⟩ := (h.develops []).cell hd
    exact if_pos (Heap.lt_size_of_get? hd₁)
  | _ => rfl

theorem trans (h₀₁ : w.IsCalling w₁) (h₁₂ : w₁.IsCalling w₂) : w.IsCalling w₂ where
  cell hd := by
    obtain hd₁ | ⟨value, value', function, rfl, hd₁⟩ := h₀₁.cell hd
    · exact h₁₂.cell hd₁
    · obtain hd₂ | ⟨_, value'', _, heq, hd₂⟩ := h₁₂.cell hd₁
      · exact .inr ⟨value, value', function, rfl, hd₂⟩
      · cases heq
        exact .inr ⟨value, value'', function, rfl, hd₂⟩
  current := h₁₂.current.trans h₀₁.current
  names h := h₁₂.names (h₀₁.names h)
  registered h := h₁₂.registered (h₀₁.registered h)
  passage o ho := (h₁₂.passage o (h₀₁.known ho)).trans (h₀₁.passage o ho)

/-- Values that objects cross as are what these come back as. -/
theorem comesBackAs {vs : List Value} (h : w.IsCalling w₁)
    (hknown : ∀ o ∈ os, w.host.heap.known o = o)
    (hvs : List.Forall₂ (fun o v => w₁.ReceivesAs o (w.passage o) v) os vs) :
    List.Forall₂ w₁.ComesBackAs os vs := by
  have hmem := (List.forall₂_and_left _ _).mpr ⟨fun _ ho => ho, hvs⟩
  refine hmem.imp fun o v hv => ?_
  rw [ComesBackAs, h.passage o (hknown o hv.1)]
  exact hv.2

end IsCalling

end World

namespace Host

/-- What the host takes in of what a callback has come to. -/
def TakesIn (r : Except Failure Parcel) (w : World) (s : Except Failure Obj) : Prop :=
  ∃ w₁, Moment.Becomes ⟨ofExcept r >>= receive, .top, Undo.leaveCallback.run w⟩
    (⟨ofExcept s, .top, w₁⟩ : Moment Obj)

/-- A key is read back from the two integers that the host has of it. -/
theorem asKey_ofNat (h : Heap) {key : Key}
    (hkey : key.index < keyBound ∧ key.generation < keyBound) :
    h.asKey (.int (.ofNat key.index)) (.int (.ofNat key.generation)) = .ok key := by
  have hpart : ∀ n, n < keyBound → h.asKeyPart (.int (.ofNat n)) = .ok n := by
    intro n hn
    have hval := Fixnum.ofNat_val hn
    simp only [Heap.asKeyPart, Heap.asNat, Heap.asInt, Bind.bind, Except.bind, Pure.pure,
      Except.pure, hval, Int.natCast_nonneg, if_true, Int.toNat_natCast, if_pos hn]
  simp only [Heap.asKey, hpart _ hkey.1, hpart _ hkey.2, Bind.bind, Except.bind, Pure.pure,
    Except.pure]

/-- The call of a script function by its key sends the items of a list, has the function run and
takes in what comes of that. -/
theorem leads_reenter {key : Key} (hkey : key.index < keyBound ∧ key.generation < keyBound)
    (hlist : w.host.heap.list? o = some os) (hknown : ∀ o ∈ os, w.host.heap.known o = o)
    (hr : (reenter (.int (.ofNat key.index)) (.int (.ofNat key.generation)) o).IsReached w) :
    ∃ ps w₁, (reenter (.int (.ofNat key.index)) (.int (.ofNat key.generation)) o).Leads w
        (Border.invoke key ps >>= receive) w₁ (fun _ w => w) ∧
      List.Forall₂ (fun o p => IsSentAs w₁ o (w.passage o) p) os ps ∧ w.Sustains w₁ := by
  have hquery : (reenter (.int (.ofNat key.index)) (.int (.ofNat key.generation)) o).Leads w
      (sendAll os >>= fun ps => Border.invoke key ps >>= receive) w fun _ w => w := by
    refine (leads_query_bind .heap _ w).trans ?_
    simp only [Query.ask, asKey_ofNat _ hkey, Heap.asList, hlist]
    exact leads_refl _ w
  obtain ⟨ps, w₁, hcomes, hs, hps⟩ :=
    attains_sendAll hr.isClosed hknown (hquery.isReached hr).bind_left
  exact ⟨ps, w₁, hquery.trans (hcomes.leads_bind (leads_refl _ w₁)), hps, hs⟩

/-- The body of a list of one form is that form. -/
theorem sequence_singleton (o : Obj) : sequence [o] = evaluate o := by
  rw [sequence, List.foldlM_cons]
  exact bind_pure _

/-- The closure of a script function puts its arguments into one list. -/
theorem callClosure_of_standsAt {h : Heap} (hf : f.StandsAt h a) (os : List Obj) :
    callClosure f.code os = list os >>= fun items =>
      within (.binding [(f.parameter, items)]) (evaluate f.form) := by
  have haccepts : f.code.accepts os.length = true := by
    simp [Lambda.accepts, hf.required, hf.rest]
  have hbindings : f.code.bindings os = [] := by
    simp [Lambda.bindings, hf.required, hf.optional, Lambda.pair]
  rw [callClosure, if_pos haccepts, hbindings, hf.rest, hf.body, sequence_singleton]
  simp only [pure_bind, Lambda.most, hf.required, hf.optional]
  rfl

/-- In the closure, its variable is bound to the list of its arguments. The form of the closure
calls the script function with that. -/
theorem leads_evaluate_callForm {items : Obj} (hstands : f.StandsAt w.host.heap a)
    (hcalls : f.Calls w.host.heap) (hdepth : w.host.depth + 1 < maxDepth) :
    (evaluate f.form).Leads (w.bound [(f.parameter, items)])
      (reenter (.int (.ofNat f.key.index)) (.int (.ofNat f.key.generation)) items)
      (w.bound [(f.parameter, items)]).deeper fun _ w => w.shallower := by
  have hr := w.host.heap.revalues_bind [(f.parameter, items)]
  -- the variable for the arguments is a symbol, and not the empty list
  obtain ⟨hnil, -⟩ | ⟨p, old, function, hp, hparameter⟩ := hstands.parameter
  · exact absurd hnil (by decide)
  cases hp
  obtain ⟨value, g, hm, hg⟩ := hcalls
  -- the function that is called is another symbol, and so it keeps its function
  have hother : f.reenter ∉ [(f.parameter, items)].map Prod.fst := by
    intro hmem
    rw [List.map_singleton, List.mem_singleton] at hmem
    rw [hmem, hparameter] at hm
    exact absurd (Cell.symbol.inj (Option.some.inj hm)).1 (by decide)
  have hform : w.host.heap.list? f.form = some f.items :=
    Heap.list?_iff.mpr ⟨hstands.form.isList, hstands.form.isList.length_le⟩
  have hvalue : (w.bound [(f.parameter, items)]).host.heap.literal? (.ref f.parameter) =
      some items := by
    -- the variable has the arguments as its value while the body is evaluated
    have hbound : (w.bound [(f.parameter, items)]).host.heap.get? f.parameter = _ :=
      Heap.get?_bind_of_mem (List.pairwise_singleton _ _) List.mem_cons_self hparameter
    simp only [Heap.literal?, Heap.shape_ref hbound]
    exact if_neg (by decide)
  have hcall := leads_evaluate_call (w := w.bound [(f.parameter, items)]) hdepth
    (hr.list? hform) ((Heap.get?_bind_of_notMem hother).trans hm) (by decide)
    (.cons rfl (.cons rfl (.cons hvalue .nil)))
  exact hcall.trans (leads_application_builtin (w := (w.bound [(f.parameter, items)]).deeper)
    (b := .reenter) (Heap.get?_bind_of_isSymbol hg rfl) _)

/-- The host applies the closure of a script function: what the arguments cross as is sent, and
the function is run by its key. -/
theorem leads_apply_closure (ho : w.AppliesAs o a) (hstands : f.StandsAt w.host.heap a)
    (hkey : f.key.index < keyBound ∧ f.key.generation < keyBound) (hcalls : f.Calls w.host.heap)
    (hdepth : w.host.depth + 1 < maxDepth) (hknown : ∀ o ∈ os, w.host.heap.known o = o)
    (hr : (apply o os).IsReached w) :
    ∃ ps w₁ g, (apply o os).Leads w (Border.invoke f.key ps >>= receive) w₁ g ∧
      List.Forall₂ (fun o p => IsSentAs w₁ o (w.passage o) p) os ps ∧ w.IsCalling w₁ ∧
      w₁.border.proxies = w.border.proxies := by
  have hcall : (apply o os).Leads w (callClosure f.code os) w fun _ w => w :=
    Leads.perform rfl (leads_application_closure ho hstands.closure os)
  rw [callClosure_of_standsAt hstands] at hcall
  obtain ⟨items, w₁, hlist, hs₁, hitems, -⟩ :=
    (builds_list os (Nat.zero_le _)).attains (isAdditive_list os) (hcall.isReached hr).bind_left
  -- the form is evaluated while the variable has the list of the arguments for its value
  have hform : (within (.binding [(f.parameter, items)]) (evaluate f.form)).Leads w₁ _ _ _ :=
    Leads.within (w₁.enter_binding [(f.parameter, items)]) rfl (fun _ => rfl)
      (leads_evaluate_callForm (hstands.growsTo hs₁.grown.host.heap)
        (hcalls.growsTo hs₁.grown.host.heap) (by rwa [hs₁.depth]))
  have hbody := hcall.trans (hlist.leads_bind hform)
  have hknown₁ : ∀ x ∈ os, (w₁.bound [(f.parameter, items)]).host.heap.known x = x :=
    fun x hx => World.known_bound _ (hs₁.grown.host.heap.known (hknown x hx))
  obtain ⟨ps, w₂, hreenter, hps, hs₂⟩ :=
    leads_reenter (w := (w₁.bound [(f.parameter, items)]).deeper) hkey
      ((w₁.host.heap.revalues_bind _).list? hitems.list?) hknown₁ (hbody.isReached hr)
  have hclosed := (hbody.isReached hr).isClosed
  have hname := hs₁.grown.host.heap.names hstands.parameter
  refine ⟨ps, w₂, _, hbody.trans hreenter, ?_, ?_, ?_⟩
  · have hmem := (List.forall₂_and_left _ _).mpr ⟨fun _ hx => hx, hps⟩
    refine hmem.imp fun x p h => ?_
    obtain ⟨hx, hp⟩ := h
    rwa [World.passage_deeper, World.passage_bound,
      hs₁.grown.passage_of_known hr.isClosed (hknown x hx)] at hp
  · exact (hs₁.isCalling hr.isClosed).trans
      ((World.isCalling_bound hname items).trans ((World.isCalling_deeper _).trans
        (hs₂.isCalling hclosed)))
  · exact hs₂.grown.proxies.trans hs₁.grown.proxies

/-! ### Running script functions -/

/-- Where a key is that of a script function and the number of arguments is right, the host has
the function run. -/
theorem leads_invoke {ps : List Parcel} {key : Key}
    (hc : w.border.callbacks.get? key = some c) (harity : c.arity.accepts ps.length = true) :
    (Border.invoke key ps >>= receive).Leads w
      (within (.callback ⟨key, ps.filterMap Parcel.reference?⟩) (Border.runCallback c ps) >>=
        receive) w fun _ w => w := by
  rw [Border.invoke, bind_assoc]
  refine (leads_query_bind _ _ w).trans ?_
  simp only [Query.ask, hc]
  cases harity' : c.arity with
  | variadic => exact leads_refl _ w
  | exactly n =>
    rw [harity', Arity.accepts_exactly_iff] at harity
    simp only [if_pos harity]
    exact leads_refl _ w

/-- The host has a script function run with what parcels bring. -/
theorem enters_invoke {ps : List Parcel} {key : Key} {P : List Value → World → Prop}
    (hc : w.border.callbacks.get? key = some c) (harity : c.arity.accepts ps.length = true)
    (hps : (ps.mapM Border.unpack).Succeeds
      (w.running ⟨key, ps.filterMap Parcel.reference?⟩) P) :
    (Border.invoke key ps >>= receive).Enters w (Border.Runs c P)
      fun r w₂ s _ => TakesIn r w₂ s := by
  have hwraps := wraps_within (p := Border.runCallback c ps) (w := w)
    (s := .callback ⟨key, ps.filterMap Parcel.reference?⟩) rfl
  refine (leads_invoke hc harity).enters (R := fun r w₂ s _ => TakesIn r w₂ s)
    (Enters.mono_upshot (Enters.bind (hwraps.enters fun hdue => ?_) isAdditive_receive)
      fun r w₂ s w₃ h => ?_) fun _ _ _ _ h => h
  · exact Border.runs_of_succeeds hdue hps
  · obtain ⟨s', w₄, ⟨rfl, rfl⟩, -, hends⟩ := h
    exact ⟨w₃, hends⟩

/-- The host applies the closure of a script function: the function runs, once, with what the
arguments come back as, and what comes of the application is what the host takes in of that. -/
theorem enters_apply_closure (hclosure : w.HasClosure c f a) (hreenter : w.Offers .reenter)
    (hdepth : w.host.depth + 1 < maxDepth) (harity : c.arity.accepts os.length = true)
    (hknown : ∀ o ∈ os, w.host.heap.known o = o) (hlive : ∀ o ∈ os, w.CanComeBack o) :
    (apply (.ref a) os).Enters w
      (Border.Runs c fun vs w₁ => List.Forall₂ w₁.ComesBackAs os vs ∧ w.IsCalling w₁)
        fun r w₂ s _ => TakesIn r w₂ s := by
  intro hdue
  obtain ⟨hstands, hc, hkey⟩ := hclosure
  obtain ⟨ps, w₁, g, hleads, hps, hcalling, hproxies⟩ := leads_apply_closure (.inl rfl) hstands
    hkey (hreenter.calls hstands) hdepth hknown hdue.isReached
  have hclosed₁ : (w₁.running ⟨f.key, ps.filterMap Parcel.reference?⟩).host.IsClosed :=
    (hleads.isReached hdue.isReached).isClosed
  have hsent : List.Forall₂ (fun o p => IsSentAs (w₁.running ⟨f.key,
      ps.filterMap Parcel.reference?⟩) o (w.passage o) p) os ps := hps.imp fun _ _ h => h
  refine hleads.enters (enters_invoke (hcalling.registered hc) (by rwa [← hps.length_eq])
    (Attains.succeeds ((Border.attains_unpackAll hsent fun o ho key hpassage => ?_).mono
      fun vs w₂ hs₂ hvs => ?_))) (fun _ _ _ _ h => h) hdue
  · obtain ⟨x, hx⟩ := hlive o ho key hpassage
    exact ⟨x, (congrArg (·.get? key) hproxies).trans hx⟩
  · have hcalling₂ := hcalling.trans ((w₁.isCalling_running _).trans (hs₂.isCalling hclosed₁))
    exact ⟨hcalling₂.comesBackAs hknown hvs, hcalling₂⟩

end Host

end Crossing
