import Crossing.Proofs.BufferScopes
import Crossing.Proofs.FormCalls

/-!
# Script functions with a current buffer

Script code has a script function run while a buffer is current. The value for the buffer may be
the name of one, or be for an object that stands for one when it is evaluated as a form: a
buffer, its name, a variable or a form that quotes. A form that calls a function is quoted, so
that it stands for itself, and the call fails.

- `World.Selects`: the buffer that a value is for;
- `Border.succeeds_quoteIfList_selects`: what the border makes of such a value;
- `Host.enters_withBuffer`: the body of a form with a buffer is evaluated in that buffer;
- `functions_run_in_the_buffer_of_a_literal`: which calls run the function, and which fail.
-/

namespace Crossing

open Proc

variable {α β : Type} {w w₀ w₁ w₂ : World} {c : Callable} {a : Addr} {o r form : Obj} {g : Handle}
  {v v' : Value} {name : String}

/-! ### The buffer that a value is for -/

namespace Heap

variable {h h₁ : Heap}

/-- The buffer that an object is or names stays so as things are added. -/
theorem GrowsTo.asBuffer (hg : h.GrowsTo h₁) (ha : h.asBuffer o = .ok a) :
    h₁.asBuffer o = .ok a := by
  unfold Heap.asBuffer at ha ⊢
  split at ha
  · rename_i b name text live hshape
    obtain ⟨b', hb', hcell⟩ := exists_ref_of_shape hshape
    cases hb'
    simp only [shape_ref (hg.cell hcell)]
    exact ha
  · rename_i name _ hshape
    obtain ⟨b, rfl, hcell⟩ := exists_ref_of_shape hshape
    simp only [shape_ref (hg.cell hcell), hg.sameBuffers.findBuffer?]
    exact ha
  · cases ha

/-- A pair that is a literal quotes what it stands for. -/
theorem quotes_of_literal? {head tail : Obj} (hshape : h.shape o = .cell (.cons head tail))
    (hr : h.literal? o = some r) : h.Names head "quote" ∧ h.list? tail = some [r] := by
  simp only [literal?, hshape] at hr
  split at hr
  · rename_i quoted hquoted
    split at hr
    · rename_i hhead
      cases hr
      exact ⟨names_of_symbolName? hhead, hquoted⟩
    · cases hr
  · cases hr

/-- What is no pair does not have the shape of one. -/
theorem isConsShape_of_not_pair (ho : ∀ head tail, h.shape o ≠ .cell (.cons head tail)) :
    Host.isConsShape (h.shape o) = false := by
  unfold Host.isConsShape
  split
  · rename_i head tail hshape
    exact absurd hshape (ho head tail)
  · rfl

end Heap

namespace World

/-- The live buffer that a script value is for: text is its name, and what a handle is for is a
literal for it or for its name. -/
def Selects (w : World) : Value → Addr → Prop
  | .handle g, a => ∃ o r, w.host.resolve? g.id = some o ∧ w.host.heap.literal? o = some r ∧
    w.host.heap.asBuffer r = .ok a
  | .text s, a => (Json.text s).isNulFree = true ∧ w.host.heap.findBuffer? s = some a
  | _, _ => False

/-- From now on, what a script value stands for is a literal for a buffer. -/
def SelectsAs (w : World) (v : Value) (a : Addr) : Prop :=
  ∀ w₁ form, w.Sustains w₁ → w₁.StandsFor v form →
    ∃ r, w₁.host.heap.literal? form = some r ∧ w₁.host.heap.asBuffer r = .ok a

/-- What a value selects it selects as the world goes on. -/
theorem Sustains.selectsAs (hs : w.Sustains w₁) (h : w.SelectsAs v a) : w₁.SelectsAs v a :=
  fun w₂ form hs₂ => h w₂ form (hs.trans hs₂)

end World

namespace Border

/-- What goes into a form for a value that is for a buffer is a literal for the buffer. -/
theorem succeeds_quoteIfList_selects (hsteady : w₀.Steady) (hclosed : w₀.host.IsClosed)
    (hoffers : w₀.OffersForms) (hv : w₀.Selects v a) (hs : w₀.Sustains w) :
    (quoteIfList v).Succeeds w fun v' w₁ => w₁.Crosses v' ∧ w₁.SelectsAs v' a := by
  cases v with
  | text s =>
    obtain ⟨hnul, hfind⟩ := hv
    have hcrosses := World.crosses_data (w := w) (v := .text s) rfl hnul rfl
      (Nat.succ_pos _)
    refine succeeds_pure ⟨hcrosses, fun w₁ form hs₁ hform => ?_⟩
    obtain ⟨⟨b, rfl, hb⟩, -⟩ := hform
    refine ⟨.ref b, by simp only [Heap.literal?, Heap.shape_ref hb], ?_⟩
    simp only [Heap.asBuffer, Heap.shape_ref hb]
    rw [(hs.trans hs₁).grown.host.heap.sameBuffers.findBuffer?, hfind]
  | handle g =>
    obtain ⟨o, r, ho, hr, ha⟩ := hv
    have hknown := hclosed.kept ho
    by_cases hpair : ∃ head tail, w₀.host.heap.shape o = .cell (.cons head tail)
    · -- the literal quotes, and so it is not quoted again
      obtain ⟨head, tail, hshape⟩ := hpair
      obtain ⟨hquote, htail⟩ := Heap.quotes_of_literal? hshape hr
      have harg : w₀.IsArgument o := by
        simp only [World.IsArgument, hshape]
        refine ⟨fun _ => ⟨r, htail⟩, fun key hkey => ?_⟩
        rw [World.passage_of_names hquote (by decide) (by decide)] at hkey
        cases hkey
      refine (succeeds_quoteIfList_handle hsteady hclosed hoffers ho harg hs).mono
        fun v' w₁ hs₁ hv' => ⟨hv'.1, fun w₂ form hs₂ hform => ?_⟩
      obtain ⟨x, ⟨o', ho', hx⟩, hfirm⟩ := hv'.2 w₂ form hs₂ hform
      obtain rfl := Option.some.inj (ho.symm.trans ho')
      rw [Heap.unquoted_of_quote hshape hquote htail] at hx
      have hg := (hs.trans (hs₁.trans hs₂)).grown
      exact ⟨r, hx ▸ hfirm.literal, hg.host.heap.asBuffer ha⟩
    · have hatom : Host.isConsShape (w.host.heap.shape o) = false := by
        rw [hs.grown.host.heap.shape_of_known hknown]
        exact Heap.isConsShape_of_not_pair fun head tail hshape => hpair ⟨head, tail, hshape⟩
      refine (succeeds_quoteIfList_atom (hs.offersForms hoffers) (hs.grown.host.kept ho)
        (hs.grown.host.heap.known hknown) hatom).mono fun v' w₁ hs₁ hv' => ?_
      subst hv'
      have hs₀₁ := hs.trans hs₁
      refine ⟨World.crosses_handle (hs₀₁.grown.host.kept ho), fun w₂ form hs₂ hform => ?_⟩
      have hg := (hs₀₁.trans hs₂).grown
      obtain rfl := Option.some.inj ((hg.host.kept ho).symm.trans hform)
      exact ⟨r, hg.host.heap.literal?_of_known hknown hr, hg.host.heap.asBuffer ha⟩
  | _ => exact hv.elim

end Border

/-! ### Forms with a buffer -/

/-- Another buffer is current. -/
def World.selecting (w : World) (a : Addr) : World :=
  { w with host := { w.host with current := a } }

/-- To select a buffer changes no value. -/
theorem World.revalues_selecting (w : World) (a : Addr) : w.Revalues (w.selecting a) :=
  ⟨fun _ => rfl, rfl, rfl⟩

namespace Host

/-- The body of a form with a buffer is evaluated while the buffer is current that a literal is
for; at the end the buffer is current that was so before. -/
theorem enters_withBuffer {x b body : Obj} {Q : Proc β → World → Prop} {S : Upshot Obj β}
    (hdepth : w.host.depth + 1 < maxDepth) (hlist : w.host.heap.list? form = some [x, o, body])
    (hx : w.host.heap.Names x "with-current-buffer") (hb : w.host.heap.literal? o = some b)
    (ha : w.host.heap.asBuffer b = .ok a)
    (hbody : (evaluate body).Enters (w.deeper.selecting a) Q S) :
    (evaluate form).Enters w Q fun _ _ _ w₃ => w₃.host.current = w.host.current := by
  refine enters_evaluate_special (k := .withBuffer) (by omega) hlist hx
    (R := fun _ _ _ w₃ => w₃.host.current = w.host.current) ?_ fun _ _ _ _ h => h
  have hbuffer : (evaluate o).Succeeds w.deeper fun b' w₁ => b' = b ∧ w₁ = w.deeper :=
    ends_evaluate_literal hdepth hb ⟨b, rfl, .refl _, rfl, rfl⟩
  refine hbuffer.enters_bind fun b' w₁ _ h => ?_
  obtain ⟨rfl, rfl⟩ := h
  refine (turns_query_bind .heap _ _).enters ?_
  simp only [Query.ask, World.heap_deeper, ha]
  have henter : (Scope.buffer a).enter w.deeper =
      .ok (.select w.host.current, w.deeper.selecting a) := rfl
  refine enters_within (R := S) henter ?_ fun _ _ _ _ _ _ => rfl
  rw [sequence_singleton]
  exact hbody

/-- If a literal is for no buffer, the evaluation of the form fails. -/
theorem ends_withBuffer_refused {x b : Obj} {body : List Obj} {s : Signal}
    (hdepth : w.host.depth + 1 < maxDepth)
    (hlist : w.host.heap.list? form = some (x :: o :: body))
    (hx : w.host.heap.Names x "with-current-buffer") (hb : w.host.heap.literal? o = some b)
    (hs : w.host.heap.asBuffer b = .error s) :
    (evaluate form).Ends w fun r _ => r = .error (.signal s) := by
  refine ends_evaluate_special (f := .withBuffer) (by omega) hlist hx ?_
  have hbuffer : (evaluate o).Succeeds w.deeper fun b' w₁ => b' = b ∧ w₁ = w.deeper :=
    ends_evaluate_literal hdepth hb ⟨b, rfl, .refl _, rfl, rfl⟩
  refine hbuffer.ends_bind fun b' w₁ _ h => ?_
  obtain ⟨rfl, rfl⟩ := h
  refine (succeeds_query .heap).ends_bind fun _ w₁ _ h => ?_
  obtain ⟨rfl, rfl⟩ := h
  simp only [Query.ask, World.heap_deeper, hs]
  exact ends_fail rfl

end Host

namespace World

/-- A script value is a handle of a form that calls a script function with a buffer. -/
def IsBufferForm (w : World) (c : Callable) (b v : Value) : Prop :=
  ∃ g x body, w.host.resolve? g.id = some x ∧ w.host.heap.Names x "with-current-buffer" ∧
    w.IsCallOf c body [] ∧ w.IsListFor v [.handle g, b, body]

theorem lasting_isBufferForm (c : Callable) (b v : Value) :
    Lasting fun w => w.IsBufferForm c b v := by
  refine ⟨fun hg h => ?_⟩
  obtain ⟨g, x, body, hx, hname, hbody, hlist⟩ := h
  exact ⟨g, x, body, hg.host.kept hx, hg.host.heap.names hname,
    (lasting_isCallOf c body []).grows hg hbody, (lasting_isListFor v _).grows hg hlist⟩

theorem IsBufferForm.crosses {b : Value} (h : w.IsBufferForm c b v) : w.Crosses v := by
  obtain ⟨_, _, _, _, _, _, hlist⟩ := h
  exact hlist.crosses

/-- What such a form is a list of. -/
theorem IsBufferForm.exists_items {b : Value} (h : w.IsBufferForm c b v) (ho : w.StandsFor v o) :
    ∃ x form body y, w.host.heap.list? o = some [x, form, y] ∧
      w.host.heap.Names x "with-current-buffer" ∧ w.StandsFor b form ∧ w.IsCallOf c body [] ∧
        w.StandsFor body y := by
  obtain ⟨g, x, body, hx, hname, hbody, u, o', os, rfl, hu, hlist, hos⟩ := h
  obtain rfl := Option.some.inj (hu.symm.trans ho)
  cases hos with
  | cons hx' hos => cases hos with
    | cons hform hos => cases hos with
      | cons hy hnil =>
        cases hnil
        obtain rfl := Option.some.inj (hx.symm.trans hx')
        exact ⟨x, _, body, _, hlist, hname, hform, hbody, hy⟩

end World

/-- The evaluation of such a form runs the script function while the buffer is current that a
literal is for. -/
theorem Host.enters_evaluate_bufferForm {b : Value} (hoffers : w.OffersCalls)
    (hdepth : w.host.depth + 3 < maxDepth) (harity : c.arity.accepts 0 = true)
    (hb : w.SelectsAs b a) (hform : w.IsBufferForm c b v) (ho : w.StandsFor v o) :
    (evaluate o).Enters w (Border.Runs c fun vs w₁ => vs = [] ∧ w₁.host.current = a)
      fun _ _ _ w₃ => w₃.host.current = w.host.current := by
  obtain ⟨x, form, body, y, hlist, hname, hformFor, hbody, hy⟩ := hform.exists_items ho
  obtain ⟨r, hr, ha⟩ := hb w form (.refl w) hformFor
  obtain ⟨z, q, f, p, args, hitems, hz, hq, hclosure, hargs⟩ := hbody.exists_items hy
  cases hargs
  refine enters_withBuffer (S := fun r w₂ s _ => TakesIn r w₂ s) (by omega) hlist hname hr ha ?_
  have hselected := w.revalues_deeper.offersCalls hoffers
  refine (enters_evaluate_funcall (w := w.deeper.selecting a)
    ((w.deeper.revalues_selecting a).offersCalls hselected) hdepth hitems hz hq.literal hclosure
    .nil harity (List.forall_mem_nil _) (List.forall_mem_nil _)).mono
      fun q w₁ hq => hq.mono fun vs w₂ hvs => ?_
  obtain ⟨hvs, hcalling⟩ := hvs
  cases hvs
  exact ⟨rfl, hcalling.current⟩

namespace Border

/-- The form that calls a script function with a buffer is made, unless the registry is full. -/
theorem succeedsUnless_bufferForm {S : Value → World → Prop} (c : Callable)
    (hoffers : w.OffersForms) (hdepth : w.host.depth < maxDepth)
    (hS : ∀ b w w₁, w.Sustains w₁ → S b w → S b w₁)
    (hquote : ∀ w₁, w.Sustains w₁ →
      (quoteIfList v).Succeeds w₁ fun b w₂ => w₂.Crosses b ∧ S b w₂) :
    (keeping (callForm c >>= fun body => symbol "with-current-buffer" >>= fun head =>
      quoteIfList v >>= fun b => list [.handle head, b, body])).SucceedsUnless Failure.IsFull w
        fun form w₁ => ∃ b, S b w₁ ∧ w₁.IsBufferForm c b form := by
  -- the registry may be full, which is the only way for the form not to be made
  refine succeedsUnless_keeping_sustained (fun form w w₁ hs h => ?_) ?_
  · obtain ⟨b, hb, hform⟩ := h
    exact ⟨b, hS b w w₁ hs hb, (World.lasting_isBufferForm c b form).grows hs.grown hform⟩
  refine (succeedsUnless_callForm c hoffers hdepth).bind fun body w₁ hs₁ hbody => ?_
  refine SucceedsUnless.bind (succeeds_symbol (by cbv)).unless fun g w₂ hs₂ hg => ?_
  obtain ⟨⟨x, hx, hname⟩, -⟩ := hg
  have hs₀₂ := hs₁.trans hs₂
  refine SucceedsUnless.bind (hquote w₂ hs₀₂).unless fun b w₃ hs₃ hb => ?_
  have hx₃ := hs₃.grown.host.kept hx
  have hbody₃ := (World.lasting_isCallOf c body []).grows (hs₂.trans hs₃).grown hbody
  obtain ⟨_, _, _, _, _, _, hlist⟩ := id hbody₃
  refine (Succeeds.unless (succeeds_list ((hs₀₂.trans hs₃).offersForms hoffers).list ?_
    hlist.avoidsMark)).mono fun form w₄ hs₄ hform => ⟨b, hS b w₃ w₄ hs₄ hb.2, g, x, body, ?_⟩
  · simpa using ⟨World.crosses_handle hx₃, hb.1, hlist.crosses⟩
  · exact ⟨hs₄.grown.host.kept hx₃, (hs₃.trans hs₄).grown.host.heap.names hname,
      (World.lasting_isCallOf c body []).grows hs₄.grown hbody₃, hform⟩

/-- A body without parameters is not refused. -/
theorem requireNullary_of_accepts (harity : c.arity.accepts 0 = true) :
    requireNullary c = pure () := by
  unfold requireNullary
  split
  · rename_i n hexactly
    rw [hexactly, Arity.accepts_exactly_iff] at harity
    exact absurd harity (Nat.succ_ne_zero n)
  · rfl

/-- Script code has a script function run while a buffer is current. -/
theorem entersUnless_inBuffer (hoffers : w.OffersCalls) (hdepth : w.host.depth + 3 < maxDepth)
    (harity : c.arity.accepts 0 = true) (hv : w.Selects v a) :
    (inBuffer v c).EntersUnless Failure.IsFull w
      (Runs c fun vs w₁ => vs = [] ∧ w₁.host.current = a)
        fun _ _ _ w₃ => w₃.host.current = w.host.current := by
  intro hdue
  have hsteady := hdue.steady
  have hclosed := hdue.isReached.isClosed
  revert hdue
  -- nothing that comes after the evaluation selects a buffer
  have hT : World.Durable fun w₃ => w₃.host.current = w.host.current :=
    ⟨fun hr h => hr.current.trans h⟩
  refine entersUnless_keeping ?_ hT
  rw [requireNullary_of_accepts harity, pure_bind]
  refine (succeedsUnless_bufferForm (S := fun b w₁ => w₁.SelectsAs b a) c hoffers.forms (by omega)
    (fun _ _ _ hs hb => hs.selectsAs hb) fun w₁ hs =>
      succeeds_quoteIfList_selects hsteady hclosed hoffers.forms hv hs).enters_bind
        fun form w₁ hs₁ hform => Enters.unless ?_
  obtain ⟨b, hb, hform⟩ := hform
  refine enters_evaluate (hs₁.offersCalls hoffers).forms.evaluate hform.crosses
    (fun o w₂ hs₂ ho => ?_) hT
  have hs := hs₁.trans hs₂
  rw [← hs.grown.current]
  exact Host.enters_evaluate_bufferForm (hs.offersCalls hoffers) (by rwa [hs.depth]) harity
    (hs₂.selectsAs hb) ((World.lasting_isBufferForm c b form).grows hs₂.grown hform) ho

/-- Why a call with a list for the buffer fails. -/
def IsRefusal (e : Failure) : Prop := e.IsFull ∨ ∃ text, e = .signal (.wrongType "bufferp" text)

/-- A list that is not headed by the symbol of quoting is quoted, and so it is for no buffer. -/
theorem ends_inBuffer_list {head tail : Obj} (hoffers : w.OffersForms)
    (hdepth : w.host.depth + 1 < maxDepth) (harity : c.arity.accepts 0 = true)
    (ho : w.host.resolve? g.id = some o) (hshape : w.host.heap.shape o = .cell (.cons head tail))
    (hhead : ¬w.host.heap.Names head "quote") (harg : w.IsArgument o) :
    (inBuffer (.handle g) c).Ends w fun r _ => ∃ e, r = .error e ∧ IsRefusal e := by
  intro hdue
  have hsteady := hdue.steady
  have hclosed := hdue.isReached.isClosed
  revert hdue
  -- a list that does not quote is nothing but itself as an argument
  have hself : w.host.heap.unquoted o = o := Heap.unquoted_eq_self fun head' tail' hcons => by
    rw [hshape] at hcons
    cases hcons
    exact hhead
  refine (ends_keeping_sustained (Q := fun r _ => ∃ e, r = .error e ∧ IsRefusal e)
    (fun _ _ _ _ h => h) ?_).mono fun _ _ h => h.1
  rw [requireNullary_of_accepts harity, pure_bind]
  refine (succeedsUnless_bufferForm (S := fun b w₁ => w.SplicesAs w₁ (.handle g) b) c hoffers
    (by omega) (fun _ _ _ hs hb => hs.splicesAs hb) fun w₁ hs =>
      succeeds_quoteIfList_handle hsteady hclosed hoffers ho harg hs).ends_bind
        (fun form w₁ hs₁ hform => ?_) fun e _ _ he => ⟨e, rfl, .inl he⟩
  obtain ⟨b, hb, hform⟩ := hform
  refine Ends.mono (ends_call (b := .evaluate) (E := fun _ => False)
    (R := fun r _ => ∃ text, r = .error (.signal (.wrongType "bufferp" text))) (by cbv)
    (hs₁.offers hoffers.evaluate) (List.forall_mem_singleton.mpr hform.crosses.unless)
    (fun _ _ _ => False.elim) (fun _ _ _ _ h => h) (fun os w₂ hs₂ hos => ?_)
    (fun e _ h => ?_) fun o _ h => ?_) fun _ _ h => h.1
  -- the form is evaluated, and the rule of its head refuses the quoted list
  · cases hos with
    | @cons _ o' _ _ ho' hnil =>
      cases hnil
      have hs := hs₁.trans hs₂
      obtain ⟨x, form', body, y, hlist, hname, hformFor, -, -⟩ :=
        ((World.lasting_isBufferForm c b form).grows hs₂.grown hform).exists_items ho'
      obtain ⟨r, ⟨o', ho', rfl⟩, hfirm⟩ := hb w₂ form' hs₂ hformFor
      obtain rfl := Option.some.inj (ho.symm.trans ho')
      rw [hself] at hfirm
      obtain ⟨p, rfl, hp⟩ := Heap.exists_ref_of_shape hshape
      have hbuffer : w₂.host.heap.asBuffer (.ref p) =
          .error (w₂.host.heap.wrongType "bufferp" (.ref p)) := by
        simp only [Heap.asBuffer, Heap.shape_ref (hs.grown.host.heap.cell hp)]
      exact (Host.ends_withBuffer_refused (by rwa [hs.depth]) hlist hname hfirm.literal
        hbuffer).mono fun _ _ h => ⟨_, h⟩
  · obtain ⟨text, h⟩ := h
    exact ⟨e, rfl, .inr ⟨text, Except.error.inj h⟩⟩
  · obtain ⟨text, h⟩ := h
    cases h

end Border

/-- Script code has a script function run with a buffer. If the value for the buffer is its name,
or is for a literal that stands for the buffer or for its name, the function is run once, while
the buffer is current, and at the end the buffer is current that was so before. If the value is
for a list that does not quote, such as a form that calls a function, the call fails and no script
code is run. Either way the call may fail because the registry is full. -/
theorem functions_run_in_the_buffer_of_a_literal (hoffers : w.OffersCalls)
    (hdepth : w.host.depth + 3 < maxDepth) (harity : c.arity.accepts 0 = true) :
    (∀ v a, w.Selects v a → (Border.inBuffer v c).EntersUnless Failure.IsFull w
      (Border.Runs c fun vs w₁ => vs = [] ∧ w₁.host.current = a)
        fun _ _ _ w₃ => w₃.host.current = w.host.current) ∧
    ∀ g o head tail, w.host.resolve? g.id = some o →
      w.host.heap.shape o = .cell (.cons head tail) → ¬w.host.heap.Names head "quote" →
      w.IsArgument o → (Border.inBuffer (.handle g) c).Ends w fun r _ =>
        ∃ e, r = .error e ∧ Border.IsRefusal e := by
  refine ⟨fun v a hv => Border.entersUnless_inBuffer hoffers hdepth harity hv, ?_⟩
  intro g o head tail ho hshape hhead harg
  exact Border.ends_inBuffer_list hoffers.forms (by omega) harity ho hshape hhead harg

/-- A script function without a body is run in the buffer that a session begins with. -/
theorem functions_run_in_the_buffer_of_a_literal_scratch :
    (∃ e w₁, Comes functionMade.scene
      (Border.inBuffer (.text "*scratch*") ⟨1, .exactly 0, none, []⟩) functionMade (.error e) w₁ ∧
      e.IsFull ∧ functionMade.Sustains w₁) ∨
    ∃ q w₁, (Border.inBuffer (.text "*scratch*") ⟨1, .exactly 0, none, []⟩).Wraps functionMade q w₁
      (fun _ _ _ w₃ => w₃.host.current = functionMade.host.current) ∧
      Border.Runs ⟨1, .exactly 0, none, []⟩
        (fun vs w₁ => vs = [] ∧ w₁.host.current = functionMade.host.current) q w₁ := by
  have hfacts : functionMade.OffersCalls ∧ functionMade.host.depth + 3 < maxDepth ∧
      functionMade.host.heap.findBuffer? "*scratch*" = some functionMade.host.current := by
    rw [functionMade, World.initial_eq]
    decide +kernel
  obtain ⟨hoffers, hdepth, hscratch⟩ := hfacts
  have hdeed : (Script.perform [] (.inBuffer (.text "*scratch*")
      (.mk (.exactly 0) none []))).IsDue (.initial .standard) :=
    isDue_perform .standard (by decide) rfl
  rw [Script.perform, Script.operand, pure_bind] at hdeed
  have hdue := (hdeed.bind_right (comes_makeFunction _ _)).bind_left
  exact (functions_run_in_the_buffer_of_a_literal hoffers hdepth rfl).1 (.text "*scratch*") _
    ⟨by decide, hscratch⟩ hdue

/-! ### Sessions -/

/-- The variable `b` is for the buffer that the form in the variable `f` evaluates to. A script
function is run in the buffer, but a call with the form fails. -/
theorem Transcript.call_forms_are_refused :
    (Transcript.ofSteps .standard [
      .mk (.runSource "(get-buffer-create \"work\")") none false,
      .mk (.list [.symbol "get-buffer", .text "work"]) (some "f") false,
      .mk (.evaluate (.variable "f")) (some "b") false,
      .mk (.inBuffer (.variable "b") (.mk (.exactly 0) none [])) none false,
      .mk (.inBuffer (.variable "f") (.mk (.exactly 0) none [])) none false]).map
        StepReport.message? =
      [none, none, none, none,
        some "Host error (wrong-type-argument): bufferp (get-buffer \"work\")"] := by
  rw [ofSteps_eq]
  decide +kernel

end Crossing
