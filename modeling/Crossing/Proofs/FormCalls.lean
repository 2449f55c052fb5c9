import Crossing.Proofs.Callbacks

/-!
# Forms that call script functions

Script code has the host evaluate a form in which a script function is called. The evaluation
runs the script function, and nothing else that script code does.

- `World.OffersCalls`: the builtins that such forms are made of and evaluated with are offered;
- `Border.enters_funcall`, `Border.enters_evaluate`: a call of the host enters what the host does;
- `World.IsCallOf`: a form that calls a script function;
- `Host.enters_evaluate_funcall`: the evaluation of such a form runs the function;
- `Border.succeedsUnless_callForm`: the form is made, unless the registry is full.
-/

namespace Crossing

open Proc

variable {α β : Type} {w w₁ w₂ : World} {c : Callable} {f : CallForm} {a : Addr} {o form : Obj}
  {os : List Obj} {v : Value} {vs : List Value} {name : String}

/-! ### Builtins -/

/-- The builtins that forms are made with are offered, and those that call functions. -/
structure World.OffersCalls (w : World) : Prop where
  forms : w.OffersForms
  funcall : w.Offers .funcall
  reenter : w.Offers .reenter

instance (w : World) : Decidable w.OffersCalls :=
  decidable_of_iff' (w.OffersForms ∧ w.Offers .funcall ∧ w.Offers .reenter)
    ⟨fun ⟨a, b, c⟩ => ⟨a, b, c⟩, fun ⟨a, b, c⟩ => ⟨a, b, c⟩⟩

/-- What sustains a world offers its calls. -/
theorem World.Sustains.offersCalls (hs : w.Sustains w₁) (h : w.OffersCalls) : w₁.OffersCalls where
  forms := hs.offersForms h.forms
  funcall := hs.offers h.funcall
  reenter := hs.offers h.reenter

/-- To change values is no matter of what is offered. -/
theorem World.Revalues.offersCalls (hr : w.Revalues w₁) (h : w.OffersCalls) : w₁.OffersCalls where
  forms := {
    list := hr.offers h.forms.list
    isCons := hr.offers h.forms.isCons
    car := hr.offers h.forms.car
    evaluate := hr.offers h.forms.evaluate
    quote := hr.sole h.forms.quote }
  funcall := hr.offers h.funcall
  reenter := hr.offers h.reenter

/-! ### Calls of the host -/

namespace Border

variable {Q : Proc β → World → Prop} {T : World → Prop}

/-- A call of a function that script code has a handle of enters what the host does when it
applies the function. -/
theorem enters_funcall {function : Handle} {value fn : Option Obj}
    (hf : w.host.resolve? function.id = some (.ref a))
    (ha : w.host.heap.get? a = some (.symbol name value fn))
    (hallowed : w.border.config.isForbidden name = false) (hvs : ∀ v ∈ vs, w.Crosses v)
    (happly : ∀ os w₁, w.Sustains w₁ → List.Forall₂ w₁.StandsFor vs os →
      (Host.apply (.ref a) os).Enters w₁ Q fun _ _ _ w₃ => T w₃)
    (hT : World.Durable T) : (funcall function vs).Enters w Q fun _ _ _ w₃ => T w₃ := by
  have hrefuse : (refuseForbiddenHandle function).Succeeds w fun _ w₁ => w₁ = w :=
    ((isAdditive_refuseForbiddenHandle function).succeeds fun hdue =>
      gives_refuseForbiddenHandle hdue.steady ha hf hallowed).mono fun _ _ _ h => h.2.1
  refine hrefuse.enters_bind fun _ w₁ _ heq => ?_
  obtain rfl := heq
  refine enters_keeping ?_ hT
  have hpacked := (succeedsUnless_packAll (E := fun _ => False)
    fun v hv => (hvs v hv).unless).succeeds
  refine hpacked.enters_bind fun ps w₂ hs₂ hps => ?_
  have hs₃ : w₂.Sustains w₂.calling :=
    .of_host (.of_border (.refl _) rfl rfl rfl rfl) rfl rfl
  have henter : Scope.outbound.enter w₂ = .ok (.leaveOutbound, w₂.calling) := rfl
  refine Enters.bind_durable (enters_within (R := fun _ _ _ w₃ => T w₃) henter ?_
    fun _ _ _ w₃ _ h => hT.keeps (w := w₃) ⟨fun _ _ hc => hc, rfl⟩ h) hT isAdditive_unpack
  -- while the call is in progress
  have hresolve : (Host.resolve function.id).Succeeds w₂.calling
      fun o w₃ => o = .ref a ∧ w₃ = w₂.calling := by
    refine (succeeds_query (.resolve? function.id)).bind fun r w₃ _ heq => ?_
    obtain ⟨rfl, rfl⟩ := heq
    simp only [Query.ask, (hs₂.trans hs₃).grown.host.kept hf]
    exact succeeds_pure ⟨rfl, rfl⟩
  refine hresolve.enters_bind fun o w₃ _ heq => ?_
  obtain ⟨rfl, rfl⟩ := heq
  refine (Host.succeeds_receiveAll (hps.imp fun v p h w₄ hs₄ => h w₄ (hs₃.trans hs₄))).enters_bind
    fun os w₄ hs₄ hos => ?_
  have hs := hs₂.trans (hs₃.trans hs₄)
  exact (happly os w₄ hs hos).bind_durable hT Host.isAdditive_send

/-- A call of a builtin that is offered enters what the builtin does. -/
theorem enters_call {b : Builtin} (hname : canonicalName b.name = b.name) (hoffers : w.Offers b)
    (hvs : ∀ v ∈ vs, w.Crosses v)
    (hrun : ∀ os w₁, w.Sustains w₁ → List.Forall₂ w₁.StandsFor vs os →
      (b.run os).Enters w₁ Q fun _ _ _ w₃ => T w₃)
    (hT : World.Durable T) : (call b.name vs).Enters w Q fun _ _ _ w₃ => T w₃ := by
  -- the name of a builtin is not reserved, which is part of its being offered
  have hrefuse : (refuseForbidden (canonicalName b.name)).Succeeds w fun _ w₁ => w₁ = w := by
    have hgives : (refuseForbidden (canonicalName b.name)).Gives 0 w (.ok ()) w := by
      rw [hname]
      exact gives_refuseForbidden hoffers.allowed
    exact ((isAdditive_refuseForbidden _).succeeds fun _ => hgives).mono fun _ _ _ h => h.2.1
  refine hrefuse.enters_bind fun _ w₁ _ heq => ?_
  obtain rfl := heq
  refine enters_keeping ?_ hT
  -- the symbol that is looked up is the one whose function is the builtin
  have hsymbol := succeeds_symbol (w := w₁) (show hostName (canonicalName b.name) .symbol =
    canonicalName b.name by rw [hname]; exact hname)
  refine hsymbol.enters_bind fun function w₂ hs₂ hfunction => ?_
  obtain ⟨⟨x, hx, hnames⟩, -⟩ := hfunction
  rw [hname] at hnames
  obtain ⟨a, f, value, rfl, ha, hf⟩ := (hs₂.offers hoffers).exists_of_names hnames
  refine enters_funcall hx ha (hs₂.offers hoffers).allowed (fun v hv => hs₂.crosses (hvs v hv))
    (fun os w₃ hs₃ hos => ?_) hT
  -- applying the symbol is running the builtin
  have happly : (Host.apply (.ref a) os).Leads w₃ (b.run os) w₃ fun _ w => w :=
    Leads.perform rfl ((Host.leads_application_symbol (hs₃.grown.host.heap.cell ha) os).trans
      (Host.leads_applyFunction_builtin (hs₃.grown.host.heap.cell hf) os))
  refine happly.enters ?_ fun _ _ _ _ h => h
  exact hrun os w₃ (hs₂.trans hs₃) hos

/-- Script code has the host evaluate a form. -/
theorem enters_evaluate (hoffers : w.Offers .evaluate) (hv : w.Crosses v)
    (hrun : ∀ o w₁, w.Sustains w₁ → w₁.StandsFor v o →
      (Host.evaluate o).Enters w₁ Q fun _ _ _ w₃ => T w₃)
    (hT : World.Durable T) : (evaluate v).Enters w Q fun _ _ _ w₃ => T w₃ := by
  refine enters_call (b := .evaluate) (by cbv) hoffers (List.forall_mem_singleton.mpr hv)
    (fun os w₁ hs hos => ?_) hT
  cases hos with
  | cons ho hnil =>
    cases hnil
    exact hrun _ w₁ hs ho

end Border

/-! ### Forms that call -/

/-- Applying the function that applies another one to arguments is applying that. -/
theorem Host.run_funcall (g : Obj) (os : List Obj) :
    Builtin.funcall.run (g :: os) = Host.apply g os := by
  simp [Builtin.run, Builtin.accepts, Builtin.range, Builtin.compute]

/-- The evaluation of a form that applies the closure of a script function to literals runs the
function with what these come back as. -/
theorem Host.enters_evaluate_funcall {x q : Obj} {args rs : List Obj} (hoffers : w.OffersCalls)
    (hdepth : w.host.depth + 2 < maxDepth)
    (hlist : w.host.heap.list? form = some (x :: q :: args)) (hx : w.host.heap.Names x "funcall")
    (hq : w.host.heap.literal? q = some (.ref a)) (hclosure : w.HasClosure c f a)
    (hargs : List.Forall₂ (fun o r => w.host.heap.literal? o = some r) args rs)
    (harity : c.arity.accepts rs.length = true) (hknown : ∀ r ∈ rs, w.host.heap.known r = r)
    (hlive : ∀ r ∈ rs, w.CanComeBack r) :
    (evaluate form).Enters w
      (Border.Runs c fun vs w₁ => List.Forall₂ w₁.ComesBackAs rs vs ∧ w.IsCalling w₁)
        fun r w₂ s _ => TakesIn r w₂ s := by
  obtain ⟨s, g, value, rfl, hs, hg⟩ := hoffers.funcall.exists_of_names hx
  have happly : (evaluate form).Leads w (Builtin.funcall.run (.ref a :: rs)) w.deeper
      fun _ w => w.shallower :=
    (leads_evaluate_call (by omega) hlist hs (by decide) (.cons hq hargs)).trans
      (leads_application_builtin (w := w.deeper) hg _)
  rw [run_funcall] at happly
  refine happly.enters ((enters_apply_closure (w := w.deeper) hclosure
    (w.revalues_deeper.offers hoffers.reenter) hdepth harity hknown fun r hr => ?_).mono
      fun q w₁ hq => hq.mono fun vs w₂ hvs => ⟨hvs.1, w.isCalling_deeper.trans hvs.2⟩)
        fun _ _ _ _ h => h
  intro key hkey
  rw [World.passage_deeper] at hkey
  exact hlive r hr key hkey

/-! ### Making the forms -/

namespace World

/-- A list of three whose last item is a list with items is not like a marker. -/
theorem IsListFor.avoidsMark {u v' v'' : Value} (h : w.IsListFor u (v :: vs)) :
    w.AvoidsMark [v', v'', u] := by
  rintro w₁ os hs hos x i n rfl
  obtain ⟨g, o, items, rfl, ho, hlist, hitems⟩ := h
  cases hitems
  obtain ⟨a, tail, rfl, -, -⟩ := Heap.exists_pair_of_list? hlist
  rw [List.forall₂_cons, List.forall₂_cons, List.forall₂_cons] at hos
  cases (hs.grown.host.kept ho).symm.trans hos.2.2.1

/-- A script value is a handle of a form that calls a script function with some arguments. -/
def IsCallOf (w : World) (c : Callable) (v : Value) (args : List Value) : Prop :=
  ∃ g x q, w.host.resolve? g.id = some x ∧ w.host.heap.Names x "funcall" ∧
    w.IsQuoteFor q (.function c) ∧ w.IsListFor v (.handle g :: q :: args)

theorem lasting_isCallOf (c : Callable) (v : Value) (args : List Value) :
    Lasting fun w => w.IsCallOf c v args := by
  refine ⟨fun hg h => ?_⟩
  obtain ⟨g, x, q, hx, hname, hq, hlist⟩ := h
  exact ⟨g, x, q, hg.host.kept hx, hg.host.heap.names hname, (lasting_isQuoteFor q _).grows hg hq,
    (lasting_isListFor v _).grows hg hlist⟩

/-- What such a form is a list of. -/
theorem IsCallOf.exists_items {args : List Value} (h : w.IsCallOf c v args)
    (ho : w.StandsFor v o) : ∃ x q f a os, w.host.heap.list? o = some (x :: q :: os) ∧
      w.host.heap.Names x "funcall" ∧ w.IsFirm (.function c) q (.ref a) ∧
      w.HasClosure c f a ∧ List.Forall₂ w.StandsFor args os := by
  obtain ⟨g, x, q, hx, hname, hq, u, o', os, rfl, hu, hlist, hos⟩ := h
  obtain rfl := Option.some.inj (hu.symm.trans ho)
  cases hos with
  | cons hx' hos =>
    cases hos with
    | @cons _ form _ _ hform hos =>
      obtain rfl := Option.some.inj (hx.symm.trans hx')
      have hsplices : w.SplicesAs w (.function c) q := hq.splicesAs fun w₁ o _ ho => ho
      obtain ⟨r, ⟨f, a, rfl, hclosure⟩, hfirm⟩ := hsplices w form (.refl w) hform
      exact ⟨x, form, f, a, _, hlist, hname, hfirm, hclosure, hos⟩

end World

namespace Border

/-- What holds however the world is sustained, holds of the result of what is held inside. -/
theorem succeedsUnless_keeping_sustained [Holds α] {E : Failure → Prop} {p : Proc α}
    {S : α → World → Prop} (hS : ∀ a w w₁, w.Sustains w₁ → S a w → S a w₁)
    (hp : p.SucceedsUnless E w S) : (keeping p).SucceedsUnless E w S := by
  refine Ends.mono (ends_keeping_sustained (Q := fun r w₁ => w.Sustains w₁ ∧
    (∀ a, r = .ok a → S a w₁) ∧ ∀ e, r = .error e → E e) (fun r w₁ w₂ hs h => ?_) hp)
      fun _ _ h => h.1
  obtain ⟨hs₁, hok, herror⟩ := h
  exact ⟨hs₁.trans hs, fun a ha => hS a w₁ w₂ hs (hok a ha), herror⟩

/-- What quotes a script function is made, unless the registry is full. -/
theorem succeedsUnless_quoteFunction (c : Callable) (hoffers : w.OffersForms)
    (hdepth : w.host.depth < maxDepth) :
    (quote (.function c)).SucceedsUnless Failure.IsFull w fun q w₁ =>
      w₁.IsQuoteFor q (.function c) :=
  succeedsUnless_quote hoffers.list
    (World.crossesUnless_function c hoffers.list hoffers.evaluate hdepth)

/-- The form that calls a script function without arguments is made, unless the registry is
full. -/
theorem succeedsUnless_callForm (c : Callable) (hoffers : w.OffersForms)
    (hdepth : w.host.depth < maxDepth) :
    (callForm c).SucceedsUnless Failure.IsFull w fun v w₁ => w₁.IsCallOf c v [] := by
  refine (succeedsUnless_keeping (fun v => World.lasting_isCallOf c v []) ?_).mono
    fun _ _ _ h => h.1
  refine SucceedsUnless.bind (succeeds_symbol (by cbv)).unless fun g w₁ hs₁ hg => ?_
  obtain ⟨⟨x, hx, hname⟩, -⟩ := hg
  refine (succeedsUnless_quoteFunction c (hs₁.offersForms hoffers) (by rwa [hs₁.depth])).bind
    fun q w₂ hs₂ hq => ?_
  have hx₂ := hs₂.grown.host.kept hx
  refine (Succeeds.unless (succeeds_list ((hs₁.trans hs₂).offersForms hoffers).list ?_
    (World.avoidsMark_of_length (by simp)))).mono fun v w₃ hs₃ hv => ?_
  · simpa using ⟨World.crosses_handle hx₂, hq.crosses⟩
  · exact ⟨g, x, q, hs₃.grown.host.kept hx₂, (hs₂.trans hs₃).grown.host.heap.names hname,
      (World.lasting_isQuoteFor q _).grows hs₃.grown hq, hv⟩

end Border

end Crossing
