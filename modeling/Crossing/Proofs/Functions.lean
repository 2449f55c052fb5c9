import Crossing.Proofs.Assignments

/-!
# Functions that cross

A script function crosses as a closure that the border has the host make. This succeeds as
long as the registry of callbacks has a key left: the forms that the closure is made of are
lists of what crosses, and the evaluation of the form that makes it does nothing else.

- `Failure.IsFull`: the registry of callbacks has no key left;
- `Border.succeeds_formOf`: a form is made of what crosses;
- `Host.succeeds_evaluate_special`: the evaluation of a special form succeeds if its rule does;
- `Border.succeedsUnless_closure`: a closure that calls a script function is made;
- `World.crossesUnless_function`: so functions cross.
-/

namespace Crossing

open Proc

variable {w w₁ : World} {v : Value} {o : Obj} {head : String} {args : List Value} {c : Callable}

/-- The registry of callbacks has no key left. -/
def Failure.IsFull (e : Failure) : Prop := e = .registryFull "callback"

/-! ### What is known of values that stand for objects -/

namespace World

/-- What stands for a value shows it. -/
theorem StandsFor.shows (h : w.StandsFor v o) : w.Shows v o := by
  cases v with
  | function c =>
    obtain ⟨f, a, rfl, hclosure⟩ := h
    exact ⟨a, f.code, rfl, hclosure.1.closure⟩
  | handle g => exact h
  | _ => exact h.1

theorem IsListFor.crosses {vs : List Value} (h : w.IsListFor v vs) : w.Crosses v := by
  obtain ⟨g, o, os, rfl, ho, -⟩ := h
  exact crosses_handle ho

/-- What never looks like the rest of a marker makes no list that looks like one. -/
theorem NeverMark.avoidsMark (h : w.NeverMark args) : w.AvoidsMark (v :: args) := by
  rintro w₁ os hs hos x i g rfl
  cases hos with
  | cons _ hrest => exact h _ w₁ hs.grown (hrest.imp fun _ _ hv => hv.shows) i g rfl

/-- What is offered keeps its function. -/
theorem Offers.keeps {b : Builtin} (h : w.Offers b) : w.host.heap.Keeps b := by
  intro a value f ha
  obtain ⟨a', value', f', hfind, ha', hf'⟩ := h.function
  obtain rfl := Option.some.inj (hfind.symm.trans (h.sole a value _ ha))
  cases ha'.symm.trans ha
  exact ⟨f', rfl, hf'⟩

/-- An integer crosses. -/
theorem crosses_int (i : Fixnum) : w.Crosses (.int i) :=
  crosses_data (j := .int i.val) rfl rfl (Value.isDatum_of_toJson_int (v := .int i) rfl)
    (Nat.succ_pos _)

end World

/-! ### Forms -/

/-- The host makes a form of what crosses. -/
theorem Border.succeeds_formOf (hname : hostName head .symbol = head)
    (hlist : w.Offers .list) (hevaluate : w.Offers .evaluate) (hargs : ∀ u ∈ args, w.Crosses u)
    (hmark : w.NeverMark args) : (formOf head args).Succeeds w fun v w₁ =>
      (∃ vs, w₁.IsListFor v vs) ∧ w₁.IsForm v head args := by
  have hlasting : ∀ v : Value, World.Lasting fun w₁ => ∃ vs, w₁.IsListFor v vs := by
    refine fun v => ⟨fun hg hv => ?_⟩
    obtain ⟨vs, hv⟩ := hv
    exact ⟨vs, (World.lasting_isListFor v vs).grows hg hv⟩
  refine ((succeeds_keeping hlasting ?_).mono fun _ _ _ h => h.1).and_adds
    (adds_formOf hname hlist.keeps (fun u _ => World.packs_of_keeps hlist.keeps hevaluate.keeps u)
      hmark)
  refine (succeeds_symbol hname).bind fun h w₁ hs hh => ?_
  obtain ⟨⟨x, hx, -⟩, -⟩ := hh
  refine (succeeds_list (hs.offers hlist) (List.forall_mem_cons.mpr
    ⟨World.crosses_handle hx, fun u hu => hs.crosses (hargs u hu)⟩) ?_).mono
      fun v w₂ _ hv => ⟨_, hv⟩
  exact ((World.lasting_neverMark args).grows hs.grown hmark).avoidsMark

/-! ### Evaluating special forms -/

namespace World

theorem growsTo_deeper (w : World) : w.GrowsTo w.deeper :=
  .of_host (.of_heap (.refl _) rfl rfl rfl) rfl rfl

theorem growsTo_shallower (w : World) : w.GrowsTo w.shallower :=
  .of_host (.of_heap (.refl _) rfl rfl rfl) rfl rfl

/-- What goes on one level deeper does so when it is left. -/
theorem Sustains.shallower (h : w.deeper.Sustains w₁) : w.Sustains w₁.shallower := by
  refine ⟨w.growsTo_deeper.trans (h.grown.trans w₁.growsTo_shallower), fun hi => h.sole hi, ?_,
    h.config⟩
  show w₁.host.depth - 1 = w.host.depth
  rw [h.depth]
  rfl

end World

/-- The evaluation of a special form succeeds with what the rule of the form gives. -/
theorem Host.succeeds_evaluate_special {f : SpecialForm} {form x : Obj} {os : List Obj}
    {S : Obj → World → Prop} (hdepth : w.host.depth < maxDepth)
    (hlist : w.host.heap.list? form = some (x :: os)) (hname : w.host.heap.Names x f.name)
    (hS : ∀ o, World.Lasting (S o)) (h : (f.run os).Succeeds w.deeper S) :
    (evaluate form).Succeeds w S := by
  refine ends_evaluate_special hdepth hlist hname (Ends.mono h fun r w₁ hr => ?_)
  obtain ⟨o, rfl, hs, ho⟩ := hr
  exact ⟨o, rfl, hs.shallower, (hS o).grows w₁.growsTo_shallower ho⟩

/-! ### Closures -/

/-- A closure that calls a script function is made of its parameter list and body. -/
theorem Host.succeeds_makeClosure {key : Key} {parameters body : Value} {ps b : Obj}
    (h : w.Calling c key parameters body) (hps : w.Shows parameters ps) (hb : w.Shows body b) :
    (makeClosure [ps, b]).Succeeds w fun o w₁ => ∃ f a, o = .ref a ∧ w₁.HasClosure c f a := by
  obtain ⟨r, m, p, hparameters, hr, hp, -, -⟩ := h.exists_items hps hb
  obtain ⟨l, hl, -⟩ := Lambda.ofForms_of_rest [b] hparameters (hr.symbolName? (by decide))
    (hp.symbolName? (by decide)) (by decide) (by decide)
  have hmade : (makeClosure [ps, b]).Succeeds w fun _ _ => True := by
    refine (succeeds_query .heap).bind fun heap w₁ _ heq => ?_
    obtain ⟨rfl, rfl⟩ := heq
    simp only [Query.ask, hl]
    exact (succeeds_change (c := .make (.closure l)) rfl).mono fun _ _ _ _ => trivial
  exact (hmade.and_adds (adds_makeClosure none none h hps hb (fun _ ho => by cases ho)
    fun _ ho => by cases ho)).mono fun _ _ _ ho => ho.2

namespace Border

/-- A script function is registered, unless the registry is full. -/
theorem succeedsUnless_register (c : Callable) :
    (register c).SucceedsUnless Failure.IsFull w fun _ _ => True := by
  refine SucceedsUnless.bind (succeeds_change (c := .register c) rfl).unless fun r w₁ _ _ => ?_
  cases r with
  | some key => exact succeedsUnless_pure trivial
  | none => exact ends_fail ⟨.refl w₁, nofun, fun e he => Except.error.inj he ▸ rfl⟩

/-- The parameter list and the body of a function that calls a script function are made. -/
theorem succeedsUnless_callingForm (c : Callable) (hlist : w.Offers .list)
    (hevaluate : w.Offers .evaluate) :
    (callingForm c).SucceedsUnless Failure.IsFull w fun forms w₁ =>
      ((∃ vs, w₁.IsListFor forms.1 vs) ∧ ∃ vs, w₁.IsListFor forms.2 vs) ∧
        ∃ key, w₁.Calling c key forms.1 forms.2 := by
  -- what is made is held while the rest is made
  have hlasting : ∀ forms : Value × Value, World.Lasting fun w₁ =>
      (∃ vs, w₁.IsListFor forms.1 vs) ∧ ∃ vs, w₁.IsListFor forms.2 vs := by
    refine fun forms => ⟨fun hg h => ?_⟩
    obtain ⟨⟨vs, hvs⟩, us, hus⟩ := h
    exact ⟨⟨vs, (World.lasting_isListFor _ vs).grows hg hvs⟩,
      us, (World.lasting_isListFor _ us).grows hg hus⟩
  refine ((succeedsUnless_keeping hlasting ?_).mono fun _ _ _ h => h.1).and_adds
    (adds_callingForm c hlist.keeps)
  refine (succeedsUnless_register c).bind fun key w₁ hs₁ _ => ?_
  refine SucceedsUnless.bind (succeeds_symbol (by cbv)).unless fun g w₂ hs₂ hg => ?_
  obtain ⟨⟨x, hx, -⟩, -⟩ := hg
  have hs := hs₁.trans hs₂
  -- the lambda list takes all arguments in one variable
  have hrest : (formOf "&rest" [.handle g]).Succeeds w₂ fun v w₃ =>
      (∃ vs, w₃.IsListFor v vs) ∧ w₃.IsForm v "&rest" [.handle g] :=
    succeeds_formOf (by cbv) (hs.offers hlist) (hs.offers hevaluate)
      (List.forall_mem_singleton.mpr (World.crosses_handle hx))
      (World.neverMark_of_length (by simp))
  refine SucceedsUnless.bind hrest.unless fun parameters w₃ hs₃ hparameters => ?_
  obtain ⟨⟨vs, hparameters⟩, -⟩ := hparameters
  have hs₀₃ := hs.trans hs₃
  refine (Succeeds.unless (succeeds_formOf (by cbv) (hs₀₃.offers hlist) (hs₀₃.offers hevaluate)
    ?_ (World.neverMark_of_length (by simp)))).bind fun body w₄ hs₄ hbody => succeedsUnless_pure ?_
  · simp only [List.forall_mem_cons, List.not_mem_nil, false_implies, implies_true, and_true]
    exact ⟨World.crosses_int _, World.crosses_int _,
      World.crosses_handle (hs₃.grown.host.kept hx)⟩
  · exact ⟨⟨vs, (World.lasting_isListFor _ vs).grows hs₄.grown hparameters⟩, hbody.1⟩

/-- A script value is a handle of a closure that calls a script function. -/
def IsClosureOf (c : Callable) (v : Value) (w : World) : Prop :=
  ∃ h, v = .handle h ∧ ∃ f a, w.HasClosure c f a ∧ w.host.resolve? h.id = some (.ref a)

theorem lasting_isClosureOf (c : Callable) (v : Value) : World.Lasting (IsClosureOf c v) := by
  refine ⟨fun hg hv => ?_⟩
  obtain ⟨h, rfl, f, a, hclosure, hid⟩ := hv
  exact ⟨h, rfl, f, a, (World.lasting_hasClosure c f a).grows hg hclosure, hg.host.kept hid⟩

/-- The form of a function that calls a script function evaluates to a closure. -/
theorem succeeds_evaluateLambda {key : Key} {parameters body : Value} {vs : List Value}
    (hevaluate : w.Offers .evaluate) (hdepth : w.host.depth < maxDepth)
    (hcalling : w.Calling c key parameters body) (hlist : w.IsListFor v vs)
    (hform : w.IsForm v "lambda" [parameters, body]) :
    (evaluate v).Succeeds w (IsClosureOf c) := by
  have hR : ∀ o : Obj, World.Lasting fun w₁ => ∃ f a, o = .ref a ∧ w₁.HasClosure c f a := by
    refine fun o => ⟨fun hg h => ?_⟩
    obtain ⟨f, a, rfl, hclosure⟩ := h
    exact ⟨f, a, rfl, (World.lasting_hasClosure c f a).grows hg hclosure⟩
  refine (succeeds_call (b := .evaluate) (Q := IsClosureOf c)
    (R := fun o w₁ => ∃ f a, o = .ref a ∧ w₁.HasClosure c f a) (by cbv) hevaluate
    (List.forall_mem_singleton.mpr hlist.crosses) (lasting_isClosureOf c)
    (fun os w₁ hs hos => ?_) fun o w₁ _ ho => ?_).mono fun _ _ _ h => h.1
  -- the form is evaluated by its own rule, which makes the closure
  · cases hos with
    | cons ho hnil =>
      cases hnil
      obtain ⟨x, os, hitems, hx, hos⟩ :=
        ((World.lasting_isForm _ _ _).grows hs.grown hform).list? ho.shows
      refine Host.succeeds_evaluate_special (f := .lambda) (by rwa [hs.depth]) hitems hx hR ?_
      have hdeeper := w₁.growsTo_deeper
      cases hos with
      | cons hps hrest =>
        cases hrest with
        | cons hb hnil =>
          cases hnil
          exact Host.succeeds_makeClosure
            ((World.lasting_calling c key _ _).grows (hs.grown.trans hdeeper) hcalling)
            ((World.lasting_shows _ _).grows hdeeper hps)
            ((World.lasting_shows _ _).grows hdeeper hb)
  · obtain ⟨f, a, rfl, hclosure⟩ := ho
    have hpassage : w₁.passage (.ref a) = .reference := by
      simp only [World.passage, Heap.shape_ref hclosure.1.closure]
    refine (handsOver_reference hpassage).mono fun u w₂ hs₂ hu => ?_
    obtain ⟨h, rfl, hid⟩ := hu
    exact ⟨h, rfl, f, a, (World.lasting_hasClosure c f a).grows hs₂.grown hclosure, hid⟩

/-- A closure that calls a script function is made, unless the registry is full. -/
theorem succeedsUnless_closure (c : Callable) (hlist : w.Offers .list)
    (hevaluate : w.Offers .evaluate) (hdepth : w.host.depth < maxDepth) :
    (closure c).SucceedsUnless Failure.IsFull w fun h w₁ => IsClosureOf c (.handle h) w₁ := by
  -- what is made is held while the rest is made
  have hform : ∀ v : Value, World.Lasting fun w₁ => ∃ key parameters body vs,
      w₁.Calling c key parameters body ∧ w₁.IsListFor v vs ∧
        w₁.IsForm v "lambda" [parameters, body] := by
    refine fun v => ⟨fun hg hv => ?_⟩
    obtain ⟨key, parameters, body, vs, hcalling, hlist, hv⟩ := hv
    exact ⟨key, parameters, body, vs, (World.lasting_calling c key _ _).grows hg hcalling,
      (World.lasting_isListFor v vs).grows hg hlist, (World.lasting_isForm _ _ _).grows hg hv⟩
  refine (succeedsUnless_keeping (fun h => lasting_isClosureOf c (.handle h))
    (SucceedsUnless.bind ((succeedsUnless_keeping hform ?_).mono fun _ _ _ h => h.1)
      fun v w₁ hs hv => ?_)).mono fun _ _ _ h => h.1
  -- the form is made first, and then evaluated
  · refine (succeedsUnless_callingForm c hlist hevaluate).bind fun forms w₁ hs hforms => ?_
    obtain ⟨parameters, body⟩ := forms
    obtain ⟨⟨⟨vs, hparameters⟩, us, hbody⟩, key, hcalling⟩ := hforms
    obtain ⟨g, -, hisForm, -⟩ := hcalling.forms
    refine (Succeeds.unless (succeeds_formOf (by cbv) (hs.offers hlist) (hs.offers hevaluate)
      (by simp [hparameters.crosses, hbody.crosses])
      (hisForm.neverMark List.mem_cons_self))).mono fun v w₂ hs₂ hv => ?_
    obtain ⟨⟨us, hv⟩, hvform⟩ := hv
    exact ⟨key, parameters, body, us, (World.lasting_calling c key _ _).grows hs₂.grown hcalling,
      hv, hvform⟩
  · obtain ⟨key, parameters, body, vs, hcalling, hisList, hisForm⟩ := hv
    refine (Succeeds.unless (succeeds_evaluateLambda (hs.offers hevaluate) (by rwa [hs.depth])
      hcalling hisList hisForm)).bind fun v w₂ _ hv => ?_
    obtain ⟨h, rfl, hclosure⟩ := hv
    exact succeedsUnless_pure ⟨h, rfl, hclosure⟩

end Border

/-- From now on, a script function crosses as a closure that calls it, unless the registry is
full. -/
theorem World.crossesUnless_function (c : Callable) (hlist : w.Offers .list)
    (hevaluate : w.Offers .evaluate) (hdepth : w.host.depth < maxDepth) :
    w.CrossesUnless Failure.IsFull (.function c) := by
  intro w₁ hs
  have hclose : (perform (.close c)).SucceedsUnless Failure.IsFull w₁
      fun h w₂ => Border.IsClosureOf c (.handle h) w₂ :=
    succeedsUnless_perform rfl (Border.succeedsUnless_closure c (hs.offers hlist)
      (hs.offers hevaluate) (by rwa [hs.depth]))
  refine hclose.bind fun h w₂ _ hh => succeedsUnless_pure fun w₃ hs₃ => ?_
  obtain ⟨_, hsame, f, a, hclosure, hid⟩ := hh
  cases hsame
  have hid₃ := hs₃.grown.host.kept hid
  refine ((Border.builds_reference hid₃).succeeds (Host.isAdditive_receive _)).mono
    fun o w₄ hs₄ ho => ?_
  obtain ⟨rfl, rfl⟩ := ho
  exact ⟨f, a, rfl, (World.lasting_hasClosure c f a).grows hs₃.grown hclosure⟩

end Crossing
