import Crossing.Proofs.HostCalls

/-!
# Call forms

How a host function comes to be that calls a script function. The border has the
host make a form out of symbols and values and evaluate it.

- `CallForm`: a closure that calls a script function with all its arguments;
- `World.Calling`: the parameter list and the body of such a closure;
- `Border.adds_closure`, `Border.yields_define`: such a closure is what the border
  has the host make of a script function;
- `World.packs_of_keeps`: functions cross as such closures.
-/

namespace Crossing

open Proc

variable {w w₁ : World}

/-! ### Lists -/

/-- An optional value with what it stands for. -/
theorem forall₂_toList {α β : Type} {R : α → β → Prop} {d : Option α} {os : List β}
    (h : List.Forall₂ R d.toList os) :
    ∃ d' : Option β, os = d'.toList ∧ ∀ o, d' = some o → ∃ v, d = some v ∧ R v o := by
  cases d with
  | none =>
    cases h
    exact ⟨none, rfl, fun o ho => by cases ho⟩
  | some v =>
    cases h with
    | @cons _ o _ _ ho hnil =>
      cases hnil
      exact ⟨some o, rfl, fun o' ho' => ⟨v, rfl, Option.some.inj ho' ▸ ho⟩⟩

/-- A chain of pairs at some places that ends in `nil`, and its items. -/
inductive Heap.ListAt (h : Heap) : List Addr → Obj → List Obj → Prop where
  | nil : ListAt h [] .nil []
  | cons {a : Addr} {places : List Addr} {head tail : Obj} {items : List Obj}
    (hpair : h.get? a = some (.cons head tail)) (htail : ListAt h places tail items) :
    ListAt h (a :: places) (.ref a) (head :: items)

namespace Heap

variable {h h₁ : Heap} {o : Obj} {items : List Obj} {places spared : List Addr}

/-- A list lies at the addresses of its pairs. -/
theorem IsList.exists_listAt (hl : h.IsList o items) : ∃ places, h.ListAt places o items := by
  induction hl with
  | nil => exact ⟨[], .nil⟩
  | cons hpair _ ih =>
    obtain ⟨places, htail⟩ := ih
    exact ⟨_, .cons hpair htail⟩

theorem ListAt.isList (hl : h.ListAt places o items) : h.IsList o items := by
  induction hl with
  | nil => exact .nil
  | cons hpair _ ih => exact .cons hpair ih

/-- A list lies where it does as the heap grows. -/
theorem ListAt.growsTo (hl : h.ListAt places o items) (hg : h.GrowsTo h₁) :
    h₁.ListAt places o items := by
  induction hl with
  | nil => exact .nil
  | cons hpair _ ih => exact .cons (hg.cell hpair) ih

/-- A list stays as it is if its pairs are spared. -/
theorem ListAt.develops (hl : h.ListAt places o items) (hd : h.Develops spared h₁)
    (hspared : ∀ a ∈ places, a ∈ spared) : h₁.ListAt places o items := by
  induction hl with
  | nil => exact .nil
  | cons hpair _ ih =>
    rw [List.forall_mem_cons] at hspared
    exact .cons (hd.pair hspared.1 hpair) (ih hspared.2)

end Heap

/-! ### Closures of call forms -/

/-- A closure that has its arguments put into a list and evaluates one form, which
calls the script function of a key with the list. The pairs of the form are at
`places`. -/
structure CallForm where
  code : Lambda
  form : Obj
  places : List Addr
  reenter : Addr
  parameter : Addr
  key : Key

/-- The form of a call form. -/
def CallForm.items (f : CallForm) : List Obj :=
  [.ref f.reenter, .int (.ofNat f.key.index), .int (.ofNat f.key.generation), .ref f.parameter]

/-- The closure stands at an address of the heap. -/
structure CallForm.StandsAt (f : CallForm) (h : Heap) (a : Addr) : Prop where
  closure : h.get? a = some (.closure f.code)
  required : f.code.required = []
  optional : f.code.optional = []
  rest : f.code.rest = some f.parameter
  body : f.code.body = [f.form]
  form : h.ListAt f.places f.form f.items
  fits : f.items.length ≤ h.size
  reenter : h.Names (.ref f.reenter) reenterName
  parameter : h.Names (.ref f.parameter) argumentsName

namespace CallForm.StandsAt

variable {f : CallForm} {h h₁ : Heap} {a : Addr}

/-- A form stands where it does as the heap grows. -/
theorem growsTo (hf : f.StandsAt h a) (hg : h.GrowsTo h₁) : f.StandsAt h₁ a :=
  { hf with
    closure := hg.cell hf.closure
    form := hf.form.growsTo hg
    fits := Nat.le_trans hf.fits hg.size_le
    reenter := hg.names hf.reenter
    parameter := hg.names hf.parameter }

/-- The closure stays what it is as long as the pairs of its form are spared. -/
theorem develops (hf : f.StandsAt h a) (hd : h.Develops f.places h₁) : f.StandsAt h₁ a :=
  { hf with
    closure := hd.closure hf.closure
    form := hf.form.develops hd fun _ ha => ha
    fits := Nat.le_trans hf.fits hd.size_le
    reenter := hf.reenter.of_develops hd
    parameter := hf.parameter.of_develops hd }

end CallForm.StandsAt

namespace Lambda

variable {h : Heap} {parameters body : Obj} {doc declaration : Option Obj}
  {r p : Addr} {name : String}

/-- What is left of a body that starts with documentation and a declaration. -/
theorem body_of_forms (hbody : h.symbolName? (h.head body) ≠ some "interactive")
    (hdoc : ∀ o, doc = some o → ∃ s, h.text? o = some s)
    (hdeclaration : ∀ o, declaration = some o →
      h.text? o = none ∧ h.symbolName? (h.head o) = some "interactive") :
    (splitCommand h (splitDoc h (doc.toList ++ declaration.toList ++ [body])).2).2 = [body] := by
  cases doc with
  | none =>
    cases declaration with
    | none => simp [splitDoc, splitCommand, hbody]
    | some d =>
      obtain ⟨htext, hname⟩ := hdeclaration d rfl
      simp [splitDoc, splitCommand, htext, hname]
  | some o =>
    obtain ⟨s, hs⟩ := hdoc o rfl
    cases declaration with
    | none => simp [splitDoc, splitCommand, hs, hbody]
    | some d =>
      obtain ⟨-, hname⟩ := hdeclaration d rfl
      simp [splitDoc, splitCommand, hs, hname]

/-- The closure of a parameter list that takes all arguments as one. -/
theorem ofForms_of_rest (forms : List Obj)
    (hparameters : h.list? parameters = some [.ref r, .ref p])
    (hr : h.symbolName? (.ref r) = some "&rest") (hp : h.symbolName? (.ref p) = some name)
    (hoptional : name ≠ "&optional") (hrest : name ≠ "&rest") :
    ∃ l, ofForms h (parameters :: forms) = .ok l ∧ l.required = [] ∧ l.optional = [] ∧
      l.rest = some p ∧ l.body = (splitCommand h (splitDoc h forms).2).2 := by
  -- the lambda list is read item by item: first the mark, then the variable for what is left
  have hfirst : readParameter h (.required, empty) (.ref r) = .ok (.rest, empty) := by
    simp only [readParameter, hr]
    rfl
  have hsecond : readParameter h (.rest, empty) (.ref p) =
      .ok (.rest, { empty with rest := some p }) := by
    simp only [readParameter, hp, if_neg hoptional, if_neg hrest]
    rfl
  have hitems : [Obj.ref r, .ref p].foldlM (readParameter h) (.required, empty) =
      .ok (.rest, { empty with rest := some p }) := by
    rw [List.foldlM_cons, hfirst]
    change [Obj.ref p].foldlM (readParameter h) (.rest, empty) = _
    rw [List.foldlM_cons, hsecond]
    rfl
  refine ⟨{ empty with
    rest := some p
    doc := (splitDoc h forms).1
    interactive := (splitCommand h (splitDoc h forms).2).1
    body := (splitCommand h (splitDoc h forms).2).2 }, ?_, rfl, rfl, rfl, rfl⟩
  simp only [ofForms, hparameters, Pure.pure, Except.pure, Bind.bind, Except.bind, hitems]

end Lambda

/-! ### Calling forms -/

namespace World

/-- Script values are for the parameter list and the body of a function that calls the
script function of a key with all its arguments. -/
structure Calling (w : World) (c : Callable) (key : Key) (parameters body : Value) : Prop where
  registered : w.border.callbacks.get? key = some c
  bounds : key.index < keyBound ∧ key.generation < keyBound
  forms : ∃ g, w.IsNamed g argumentsName ∧ w.IsForm parameters "&rest" [.handle g] ∧
    w.IsForm body reenterName
      [.int (.ofNat key.index), .int (.ofNat key.generation), .handle g]

theorem lasting_calling (c : Callable) (key : Key) (parameters body : Value) :
    Lasting fun w => w.Calling c key parameters body := by
  refine ⟨fun hg h => ⟨hg.registered h.registered, h.bounds, ?_⟩⟩
  obtain ⟨g, hname, hparameters, hbody⟩ := h.forms
  exact ⟨g, (lasting_isNamed g _).grows hg hname, (lasting_isForm _ _ _).grows hg hparameters,
    (lasting_isForm _ _ _).grows hg hbody⟩

/-- The objects of such values: the parameter list is of a marker and a symbol, and the
body is a call with the symbol. -/
theorem Calling.exists_items {c : Callable} {key : Key} {parameters body : Value} {ps b : Obj}
    (h : w.Calling c key parameters body) (hps : w.Shows parameters ps) (hb : w.Shows body b) :
    ∃ r m p, w.host.heap.list? ps = some [.ref r, .ref p] ∧
      w.host.heap.Names (.ref r) "&rest" ∧ w.host.heap.Names (.ref p) argumentsName ∧
      w.host.heap.Names (.ref m) reenterName ∧ w.host.heap.list? b =
        some [.ref m, .int (.ofNat key.index), .int (.ofNat key.generation), .ref p] := by
  have href : ∀ {o name}, w.host.heap.Names o name → name ≠ "nil" → ∃ a, o = .ref a := by
    rintro o name (⟨hnil, -⟩ | ⟨a, _, _, ho, -⟩) hname
    · exact absurd hnil hname
    · exact ⟨a, ho⟩
  obtain ⟨g, hg, hparameters, hbody⟩ := h.forms
  obtain ⟨x, os, hlist, hx, hos⟩ := hparameters.list? hps
  obtain ⟨y, os', hlist', hy, hos'⟩ := hbody.list? hb
  obtain ⟨r, rfl⟩ := href hx (by decide)
  obtain ⟨m, rfl⟩ := href hy (by decide)
  -- both lists have the symbol that the handle of the parameter is for
  cases hos with
  | @cons _ q _ _ hq hnil =>
    cases hnil
    have hqname := hg.2 q hq
    obtain ⟨p, rfl⟩ := href hqname (by decide)
    cases hos' with
    | cons hindex hos' => cases hos' with
      | cons hgeneration hos' => cases hos' with
        | cons hq' hnil' =>
          cases hnil'
          obtain rfl := hindex
          obtain rfl := hgeneration
          obtain rfl := Option.some.inj (Eq.trans (Eq.symm hq') hq)
          exact ⟨r, m, p, hlist, hx, hqname, hy, hlist'⟩

/-- The host has a closure that calls a script function. -/
def HasClosure (w : World) (c : Callable) (f : CallForm) (a : Addr) : Prop :=
  f.StandsAt w.host.heap a ∧ w.border.callbacks.get? f.key = some c ∧
    f.key.index < keyBound ∧ f.key.generation < keyBound

theorem lasting_hasClosure (c : Callable) (f : CallForm) (a : Addr) :
    Lasting fun w => w.HasClosure c f a :=
  ⟨fun hg h => ⟨h.1.growsTo hg.host.heap, hg.registered h.2.1, h.2.2⟩⟩

end World

/-! ### Building the closures -/

/-- The head of a list is its first item. -/
theorem Heap.head_of_list? {h : Heap} {o head : Obj} {items : List Obj}
    (hl : h.list? o = some (head :: items)) : h.head o = head := by
  obtain ⟨a, _, rfl, hpair, -⟩ := exists_pair_of_list? hl
  simp only [Heap.head, shape_ref hpair]

/-- A list is no text. -/
theorem Heap.text?_of_list? {h : Heap} {o head : Obj} {items : List Obj}
    (hl : h.list? o = some (head :: items)) : h.text? o = none := by
  obtain ⟨a, _, rfl, hpair, -⟩ := exists_pair_of_list? hl
  simp only [Heap.text?, shape_ref hpair]

/-- The closure of such a parameter list and body, which may have documentation and a
declaration before it. -/
theorem Host.adds_makeClosure {c : Callable} {key : Key} {parameters body : Value} {ps b : Obj}
    (doc declaration : Option Obj) (h : w.Calling c key parameters body)
    (hps : w.Shows parameters ps) (hb : w.Shows body b)
    (hdoc : ∀ o, doc = some o → ∃ s, w.host.heap.text? o = some s)
    (hdeclaration : ∀ o, declaration = some o → w.host.heap.text? o = none ∧
      w.host.heap.symbolName? (w.host.heap.head o) = some "interactive") :
    (makeClosure (ps :: (doc.toList ++ declaration.toList ++ [b]))).Adds w fun o w₁ =>
      ∃ f a, o = .ref a ∧ w₁.HasClosure c f a := by
  obtain ⟨r, m, p, hparameters, hr, hp, hm, hbody⟩ := h.exists_items hps hb
  obtain ⟨l, hl, hrequired, hoptional, hrest, hforms⟩ :=
    Lambda.ofForms_of_rest (doc.toList ++ declaration.toList ++ [b]) hparameters
      (hr.symbolName? (by decide)) (hp.symbolName? (by decide)) (by decide) (by decide)
  -- the call in the body is no command, and so the whole body stays
  have hcall : w.host.heap.symbolName? (w.host.heap.head b) ≠ some "interactive" := by
    rw [Heap.head_of_list? hbody, hm.symbolName? (by decide)]
    decide
  rw [Lambda.body_of_forms hcall hdoc hdeclaration] at hforms
  obtain ⟨hlist, hfits⟩ := Heap.list?_iff.mp hbody
  obtain ⟨places, hplaces⟩ := hlist.exists_listAt
  refine (adds_query .heap).bind fun heap w₁ _ heq => ?_
  obtain ⟨rfl, rfl⟩ := heq
  simp only [Query.ask, hl]
  refine (adds_make (.closure l)).mono fun o w₂ hg ho => ?_
  obtain ⟨rfl, hcell, -⟩ := ho
  refine ⟨⟨l, b, places, m, p, key⟩, _, rfl, ?_, hg.registered h.registered, h.bounds⟩
  exact {
    closure := hcell
    required := hrequired
    optional := hoptional
    rest := hrest
    body := hforms
    form := hplaces.growsTo hg.host.heap
    fits := Nat.le_trans hfits hg.host.heap.size_le
    reenter := hg.host.heap.names hm
    parameter := hg.host.heap.names hp }

namespace Border

/-- A script function that is registered has a key in range. -/
theorem adds_register (c : Callable) :
    (register c).Adds w fun key w₁ => w₁.border.callbacks.get? key = some c ∧
      key.index < keyBound ∧ key.generation < keyBound := by
  have hchange : (change (.register c)).Adds w fun r w₁ => ∀ key, r = some key →
      w₁.border.callbacks.get? key = some c ∧
        key.index < keyBound ∧ key.generation < keyBound := by
    intro hr
    obtain ⟨r, w₁, hcomes, hok⟩ := adds_change (c := .register c) rfl hr
    refine ⟨r, w₁, hcomes, fun registered hregistered => ?_⟩
    obtain ⟨hg, rfl, rfl⟩ := hok registered hregistered
    refine ⟨hg, fun key hkey => ?_⟩
    -- the registry gives a key, or is full
    cases hinsert : w.border.callbacks.insert c with
    | none =>
      simp only [Change.run, hinsert] at hkey
      cases hkey
    | some inserted =>
      obtain ⟨key', callbacks⟩ := inserted
      simp only [Change.run, hinsert] at hkey ⊢
      obtain rfl := Option.some.inj hkey
      exact ⟨Registry.get?_insert_self hr.callbacks hinsert,
        Registry.lt_keyBound_of_insert hr.callbacks hinsert⟩
  refine hchange.bind fun r w₁ _ hr => ?_
  cases r with
  | some key => exact adds_pure (hr key rfl)
  | none => exact adds_fail _

/-- The parameter list and the body of a function that calls a script function. -/
theorem adds_callingForm (c : Callable) (hlist : w.host.heap.Keeps .list) :
    (callingForm c).Adds w fun forms w₁ => ∃ key, w₁.Calling c key forms.1 forms.2 := by
  have hlasting : ∀ forms : Value × Value,
      World.Lasting fun w₁ => ∃ key, w₁.Calling c key forms.1 forms.2 := by
    refine fun forms => ⟨fun hg h => ?_⟩
    obtain ⟨key, hcalling⟩ := h
    exact ⟨key, (World.lasting_calling c key _ _).grows hg hcalling⟩
  -- the name is the same on both sides
  have hname : hostName argumentsName .symbol = argumentsName := by cbv
  refine adds_keeping hlasting ((adds_register c).bind fun key w₁ hg₁ hkey => ?_)
  refine (adds_lookup argumentsName .symbol true).bind fun g w₂ hg₂ hg => ?_
  rw [hname] at hg
  have hkeeps := (hg₁.trans hg₂).host.heap.keeps hlist
  -- the lambda list takes all arguments in one variable
  have hrest : (formOf "&rest" [.handle g]).Adds w₂ fun v w₃ =>
      w₃.IsForm v "&rest" [.handle g] :=
    adds_formOf (by cbv) hkeeps (by simp)
      (World.neverMark_of_length (by simp))
  refine hrest.bind fun parameters w₃ hg₃ hparameters => ?_
  refine (adds_formOf (by cbv) (hg₃.host.heap.keeps hkeeps) (by simp)
    (World.neverMark_of_length (by simp))).bind fun body w₄ hg₄ hbody => ?_
  refine adds_pure ⟨key, ?_, hkey.2, g, ?_, ?_, hbody⟩
  · exact hg₄.registered (hg₃.registered (hg₂.registered hkey.1))
  · exact (World.lasting_isNamed g argumentsName).grows (hg₃.trans hg₄) hg
  · exact (World.lasting_isForm _ _ _).grows hg₄ hparameters

/-- Evaluating the form of a function that calls a script function gives a handle of a
closure that does so. -/
theorem adds_evaluateLambda {c : Callable} {key : Key} {v parameters body : Value}
    (hevaluate : w.host.heap.Keeps .evaluate) (hcalling : w.Calling c key parameters body)
    (hform : w.IsForm v "lambda" [parameters, body]) :
    (evaluate v).Adds w fun v w₁ => ∃ h, v = .handle h ∧ ∃ f a, w₁.HasClosure c f a ∧
      w₁.host.resolve? h.id = some (.ref a) := by
  have hR : ∀ o : Obj, World.Lasting fun w₁ => ∃ f a, o = .ref a ∧ w₁.HasClosure c f a := by
    refine fun o => ⟨fun hg h => ?_⟩
    obtain ⟨f, a, rfl, hclosure⟩ := h
    exact ⟨f, a, rfl, (World.lasting_hasClosure c f a).grows hg hclosure⟩
  have hQ : ∀ v : Value, World.Lasting fun w₁ => ∃ h, v = .handle h ∧
      ∃ f a, w₁.HasClosure c f a ∧ w₁.host.resolve? h.id = some (.ref a) := by
    refine fun v => ⟨fun hg hh => ?_⟩
    obtain ⟨h, rfl, f, a, hclosure, hid⟩ := hh
    exact ⟨h, rfl, f, a, (World.lasting_hasClosure c f a).grows hg hclosure, hg.host.kept hid⟩
  -- the form is evaluated by its own rule, which makes the closure
  refine adds_evaluate (f := .lambda) hevaluate hform rfl hR hQ ?_ ?_
  -- the arguments of the rule are the lambda list and the body
  · intro os w₁ hg hos
    cases hos with
    | cons hps hos => cases hos with
      | cons hb hnil =>
        cases hnil
        exact Host.adds_makeClosure none none ((World.lasting_calling c key _ _).grows hg hcalling)
          hps hb (fun o ho => by cases ho) fun o ho => by cases ho
  · rintro o w₁ - ⟨f, a, rfl, hclosure⟩
    refine delivers_reference (Host.adds_send_closure hclosure.1.closure) fun g w₂ hg₂ hg' => ?_
    exact ⟨g, rfl, f, a, (World.lasting_hasClosure c f a).grows hg₂ hclosure, hg'⟩

/-- What the border has the host make of a script function: a closure that calls it. -/
theorem adds_closure (c : Callable) (hlist : w.host.heap.Keeps .list)
    (hevaluate : w.host.heap.Keeps .evaluate) :
    (closure c).Adds w fun h w₁ => ∃ f a, w₁.HasClosure c f a ∧
      w₁.host.resolve? h.id = some (.ref a) := by
  have hlasting : ∀ h : Handle, World.Lasting fun w₁ => ∃ f a, w₁.HasClosure c f a ∧
      w₁.host.resolve? h.id = some (.ref a) := by
    refine fun h => ⟨fun hg hh => ?_⟩
    obtain ⟨f, a, hclosure, hid⟩ := hh
    exact ⟨f, a, (World.lasting_hasClosure c f a).grows hg hclosure, hg.host.kept hid⟩
  have hform : ∀ v : Value, World.Lasting fun w₁ => ∃ key parameters body,
      w₁.Calling c key parameters body ∧ w₁.IsForm v "lambda" [parameters, body] := by
    refine fun v => ⟨fun hg hv => ?_⟩
    obtain ⟨key, parameters, body, hcalling, hv⟩ := hv
    exact ⟨key, parameters, body, (World.lasting_calling c key _ _).grows hg hcalling,
      (World.lasting_isForm _ _ _).grows hg hv⟩
  refine adds_keeping hlasting ((adds_keeping hform ?_).bind fun v w₁ hg hv => ?_)
  -- the form is made first, and then evaluated
  · refine (adds_callingForm c hlist).bind fun forms w₁ hg hforms => ?_
    obtain ⟨parameters, body⟩ := forms
    obtain ⟨key, hcalling⟩ := hforms
    obtain ⟨g, -, hparameters, hbody⟩ := hcalling.forms
    -- lambda list and body can be packed, since both are lists on the host
    have hparts : ∀ v ∈ [parameters, body], w₁.Packs v := by
      simp [hparameters.packs, hbody.packs]
    refine (adds_formOf (by cbv) (hg.host.heap.keeps hlist) hparts
      (hparameters.neverMark List.mem_cons_self)).mono fun v w₂ hg₂ hv =>
        ⟨key, parameters, body, ?_, hv⟩
    exact (World.lasting_calling c key _ _).grows hg₂ hcalling
  · obtain ⟨key, parameters, body, hcalling, hv⟩ := hv
    refine (adds_evaluateLambda (hg.host.heap.keeps hevaluate) hcalling hv).bind fun v w₂ _ hv => ?_
    obtain ⟨h, rfl, hclosure⟩ := hv
    exact adds_pure hclosure

/-- A function crosses as a closure that calls it. -/
theorem adds_packFunction (c : Callable) (hlist : w.host.heap.Keeps .list)
    (hevaluate : w.host.heap.Keeps .evaluate) :
    (pack (.function c)).Adds w fun r w₁ => w₁.Brings (.function c) r.1 := by
  have hclose : (perform (.close c)).Adds w fun h w₁ => ∃ f a, w₁.HasClosure c f a ∧
      w₁.host.resolve? h.id = some (.ref a) :=
    yields_perform rfl (adds_closure c hlist hevaluate)
  refine hclose.bind fun h w₁ _ hh => adds_pure (Host.brings_reference fun w₂ o hg ho => ?_)
  obtain ⟨f, a, hclosure, hid⟩ := hh
  obtain rfl := Option.some.inj ((hg.host.kept hid).symm.trans ho)
  exact ⟨a, f.code, rfl, hg.host.heap.cell hclosure.1.closure⟩

end Border

/-- As long as the builtins that make closures keep their functions, all values pack. -/
theorem World.packs_of_keeps (hlist : w.host.heap.Keeps .list)
    (hevaluate : w.host.heap.Keeps .evaluate) (v : Value) : w.Packs v := by
  cases v with
  | function c =>
    exact fun w₁ hg => Border.adds_packFunction c (hg.host.heap.keeps hlist)
      (hg.host.heap.keeps hevaluate)
  | _ => exact World.packs nofun

/-! ### Defining functions -/

namespace Border

/-- The declaration that a function is a command. -/
theorem adds_commandForm (command : Command) (hlist : w.host.heap.Keeps .list) :
    (commandForm command).Adds w fun v w₁ => ∃ args, w₁.IsForm v "interactive" args := by
  cases command with
  | plain =>
    exact (adds_formOf (by cbv) hlist (by simp)
      (World.neverMark_of_length (by simp))).mono fun v _ _ hv => ⟨_, hv⟩
  | spec s =>
    exact (adds_formOf (by cbv) hlist (by simp)
      (World.neverMark_of_length (by simp))).mono fun v _ _ hv => ⟨_, hv⟩

end Border

/-- A handle is for a symbol whose function is the closure at an address. -/
def World.IsDefined (w : World) (h : Handle) (a : Addr) : Prop :=
  ∃ s name value, w.host.heap.get? s = some (.symbol name value (some (.ref a))) ∧
    w.host.Promises h.id fun o => o = .ref s

theorem World.lasting_isDefined (h : Handle) (a : Addr) : Lasting fun w => w.IsDefined h a := by
  refine ⟨fun hg hh => ?_⟩
  obtain ⟨s, name, value, hs, hid⟩ := hh
  exact ⟨s, name, value, hg.host.heap.cell hs, hid.of_ages hg.host.ages fun _ ho => ho⟩

/-- What is a symbol to be set has a cell for it. -/
theorem Heap.exists_symbol_of_asSymbol {h : Heap} {o : Obj} {s : Addr}
    (hs : h.asSymbol o = .ok s) :
    o = .ref s ∧ ∃ name value function, h.get? s = some (.symbol name value function) := by
  unfold asSymbol symbol? at hs
  cases o with
  | ref a =>
    cases hcell : h.get? a with
    | none => simp [hcell] at hs
    | some c =>
      cases c with
      | symbol name value function =>
        simp only [hcell] at hs
        cases hs
        exact ⟨rfl, name, value, function, hcell⟩
      | _ => simp [hcell] at hs
  | _ => simp at hs

namespace Host

/-- Setting the function of a symbol to a closure that is there. -/
theorem yields_setFunction {c : Callable} {f : CallForm} {a s : Addr} {name : String}
    {value function : Option Obj} {h : Handle} (hclosure : w.HasClosure c f a)
    (hs : w.host.heap.get? s = some (.symbol name value function))
    (hid : w.host.Promises h.id fun o => o = .ref s) :
    (change (.setFunction s (.ref a))).Yields w fun _ w₁ =>
      w₁.HasClosure c f a ∧ w₁.IsDefined h a := by
  refine fun _ => ⟨.ok (), _, .act rfl (.done rfl), fun _ _ => ?_⟩
  have hd : w.host.heap.Develops f.places (w.host.heap.setFunction s (some (.ref a))) :=
    Heap.develops_modify fun c => by cases c <;> rfl
  refine ⟨⟨hclosure.1.develops hd, hclosure.2⟩, s, name, value, ?_, ?_⟩
  · change (w.host.heap.modify s _).get? s = _
    rw [Heap.get?_modify_self, hs]
    rfl
  · exact hid.of_ages (Interpreter.ages_of_eq rfl rfl) fun _ ho => ho

/-- Defining a function with such a parameter list and body. -/
theorem yields_defun {c : Callable} {key : Key} {parameters body : Value} {o ps b : Obj}
    {h : Handle} (doc declaration : Option Obj) (ho : w.host.resolve? h.id = some o)
    (hcalling : w.Calling c key parameters body) (hps : w.Shows parameters ps)
    (hb : w.Shows body b) (hdoc : ∀ o, doc = some o → ∃ s, w.host.heap.text? o = some s)
    (hdeclaration : ∀ o, declaration = some o → w.host.heap.text? o = none ∧
      w.host.heap.symbolName? (w.host.heap.head o) = some "interactive") :
    (defun (o :: ps :: (doc.toList ++ declaration.toList ++ [b]))).Yields w fun _ w₁ =>
      ∃ f a, w₁.HasClosure c f a ∧ w₁.IsDefined h a := by
  intro hr
  have hpromise := Interpreter.promises_of_resolve? hr.sound.host ho
  revert hr
  refine (adds_query .heap).yields_bind fun heap w₁ _ heq => ?_
  obtain ⟨rfl, rfl⟩ := heq
  simp only [Query.ask]
  -- what is defined must be a symbol, or the form fails
  cases hsymbol : w₁.host.heap.asSymbol o with
  | error e => exact yields_fail _
  | ok s =>
    obtain ⟨rfl, name, value, function, hs⟩ := Heap.exists_symbol_of_asSymbol hsymbol
    refine (adds_makeClosure doc declaration hcalling hps hb hdoc hdeclaration).yields_bind
      fun closure w₂ hg hclosure => ?_
    obtain ⟨f, a, rfl, hclosure⟩ := hclosure
    refine (yields_setFunction hclosure (hg.host.heap.cell hs) ?_).bind fun _ w₃ h₃ =>
      yields_pure ⟨f, a, h₃⟩
    exact hpromise.of_ages hg.host.ages fun _ ho => ho

end Host

namespace Border

/-- The items of the form that defines a function. -/
def definingItems (head h : Handle) (parameters body : Value) (doc : Option String)
    (declaration : Option Value) : List Value :=
  [.handle head, .handle h, parameters] ++ (doc.map Value.text).toList ++ declaration.toList ++
    [body]

/-- Evaluating the form that defines a function. -/
theorem yields_evaluateDefun {c : Callable} {key : Key} {h head : Handle}
    {parameters body : Value} (doc : Option String) (declaration : Option Value)
    (hlist : w.host.heap.Keeps .list) (hevaluate : w.host.heap.Keeps .evaluate)
    (hhead : w.IsNamed head "defun") (hcalling : w.Calling c key parameters body)
    (hdeclaration : ∀ v, declaration = some v → ∃ args, w.IsForm v "interactive" args) :
    (list (definingItems head h parameters body doc declaration) >>= fun form =>
      evaluate form >>= fun _ => pure h).Yields w fun h w₁ =>
        ∃ f a, w₁.HasClosure c f a ∧ w₁.IsDefined h a := by
  obtain ⟨g, -, hparameters, hbody⟩ := hcalling.forms
  have hlasting : World.Lasting fun w₁ => ∃ f a, w₁.HasClosure c f a ∧ w₁.IsDefined h a := by
    refine ⟨fun hg hh => ?_⟩
    obtain ⟨f, a, hclosure, hh⟩ := hh
    exact ⟨f, a, (World.lasting_hasClosure c f a).grows hg hclosure,
      (World.lasting_isDefined h a).grows hg hh⟩
  refine (adds_list hlist ?_ ?_).yields_bind fun form w₁ hg hform => ?_
  · intro u hu
    change u ∈ definingItems head h parameters body doc declaration at hu
    simp only [definingItems, List.mem_append, List.mem_cons, Option.mem_toList,
      Option.map_eq_some_iff, List.not_mem_nil, or_false] at hu
    obtain (((rfl | rfl | rfl) | ⟨s, -, rfl⟩) | hu) | rfl := hu
    · exact World.packs nofun
    · exact World.packs nofun
    · exact hparameters.packs
    · exact World.packs nofun
    · obtain ⟨args, hu⟩ := hdeclaration u hu
      exact hu.packs
    · exact hbody.packs
  · exact World.neverMark_of_length (by simp)
  · have hhead₁ := (World.lasting_isNamed head _).grows hg hhead
    refine (composes_yields.evaluate (f := .defun) (hg.host.heap.keeps hevaluate)
      ⟨head, hhead₁, hform⟩ (by cbv) (fun _ => hlasting) (fun _ => hlasting)
      ?_ fun o w₂ hdone => delivers_of_lasting hlasting hdone).bind fun _ w₂ hdone =>
        yields_pure hdone
    · intro os w₂ hg₂ hos
      -- the objects are in the same places as the values
      obtain ⟨_, bs, rfl, hfront, hbs⟩ := exists_append_of_forall₂ hos
      obtain ⟨_, ds, rfl, hfront', hds⟩ := exists_append_of_forall₂ hfront
      obtain ⟨_, ts, rfl, hnames, hts⟩ := exists_append_of_forall₂ hfront'
      obtain ⟨doc', rfl, hdoc⟩ := forall₂_toList hts
      obtain ⟨declaration', rfl, hdeclaration'⟩ := forall₂_toList hds
      cases hbs with
      | cons hb hnil =>
        cases hnil
        cases hnames with
        | cons ho hrest => cases hrest with
          | cons hps hnil =>
            cases hnil
            have hcalling₂ := (World.lasting_calling c key _ _).grows (hg.trans hg₂) hcalling
            refine Host.yields_defun doc' declaration' ho hcalling₂ hps hb ?_ ?_
            · intro o ho
              obtain ⟨v, hv, hshows⟩ := hdoc o ho
              obtain ⟨s, -, rfl⟩ := Option.map_eq_some_iff.mp hv
              obtain ⟨a, rfl, ha⟩ := hshows
              exact ⟨s, by simp only [Heap.text?, Heap.shape_ref ha]⟩
            · intro o ho
              obtain ⟨v, hv, hshows⟩ := hdeclaration' o ho
              obtain ⟨args, hform⟩ := hdeclaration v hv
              obtain ⟨x, items, hitems, hx, -⟩ :=
                ((World.lasting_isForm _ _ _).grows (hg.trans hg₂) hform).list? hshows
              refine ⟨Heap.text?_of_list? hitems, ?_⟩
              rw [Heap.head_of_list? hitems, hx.symbolName? (by decide)]

/-- What the border has the host define: a symbol whose function is a closure that calls
the script function. -/
theorem yields_define (name : String) (c : Callable) (doc : Option String)
    (command : Option Command) (hlist : w.host.heap.Keeps .list)
    (hevaluate : w.host.heap.Keeps .evaluate) :
    (define name c doc command).Yields w fun h w₁ => ∃ f a, w₁.HasClosure c f a ∧
      w₁.IsDefined h a := by
  have hlasting : ∀ h : Handle, World.Lasting fun w₁ => ∃ f a, w₁.HasClosure c f a ∧
      w₁.IsDefined h a := by
    refine fun h => ⟨fun hg hh => ?_⟩
    obtain ⟨f, a, hclosure, hh⟩ := hh
    exact ⟨f, a, (World.lasting_hasClosure c f a).grows hg hclosure,
      (World.lasting_isDefined h a).grows hg hh⟩
  have hdefun : hostName "defun" .symbol = "defun" := by cbv
  refine yields_keeping hlasting ?_
  refine (adds_lookup name .symbol true).yields_bind fun h w₁ hg₁ _ => ?_
  refine (adds_callingForm c (hg₁.host.heap.keeps hlist)).yields_bind
    fun forms w₂ hg₂ hforms => ?_
  obtain ⟨parameters, body⟩ := forms
  obtain ⟨key, hcalling⟩ := hforms
  refine (adds_lookup "defun" .symbol true).yields_bind fun head w₃ hg₃ hhead => ?_
  rw [hdefun] at hhead
  have hg := hg₁.trans (hg₂.trans hg₃)
  have hcalling₃ := (World.lasting_calling c key _ _).grows hg₃ hcalling
  -- a command adds one more form to the body
  cases command with
  | none =>
    exact yields_evaluateDefun doc none (hg.host.heap.keeps hlist)
      (hg.host.heap.keeps hevaluate) hhead hcalling₃ fun v hv => by cases hv
  | some command =>
    refine (adds_commandForm command (hg.host.heap.keeps hlist)).yields_bind
      fun v w₄ hg₄ hv => ?_
    refine yields_evaluateDefun doc (some v) ((hg.trans hg₄).host.heap.keeps hlist)
      ((hg.trans hg₄).host.heap.keeps hevaluate) ((World.lasting_isNamed head _).grows hg₄ hhead)
      ((World.lasting_calling c key _ _).grows hg₄ hcalling₃) fun v' hv' => ?_
    exact Option.some.inj hv' ▸ hv

end Border

end Crossing
