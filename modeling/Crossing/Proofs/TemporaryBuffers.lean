import Crossing.Proofs.Comparisons
import Crossing.Proofs.CurrentBuffers

/-!
# Temporary buffers

The buffer of a form with a temporary buffer is looked up by its name, and made if there is none.
It is new unless a live buffer has that name already; and it is killed in either case.

- `temporary_buffers_are_fresh_unless_named`: where the body of such a form starts, and what its
  end does;
- `Border.entersUnless_inTemporaryBuffer`: a script function that is run in a temporary buffer is
  the body of such a form.
-/

namespace Crossing

open Proc

variable {α β : Type} {w w₁ w₂ : World} {c : Callable} {a : Addr} {o r x form : Obj} {v : Value}
  {name : String} {items body : List Obj}

/-! ### The buffer of a name -/

namespace World

/-- A form with a temporary buffer has found its buffer. -/
def ensured (w : World) : Addr × World :=
  (Change.ensureBuffer w.host.temporaryName).run (Change.temporaryName.run w).2

/-- The world in which the body of a form with a temporary buffer starts. -/
def temporary (w : World) : World :=
  { w.ensured.2 with host := { w.ensured.2.host with current := w.ensured.1 } }

/-- The buffer is the live one of its name, or a new one. -/
theorem temporary_cases (w : World) :
    (w.host.heap.findBuffer? w.host.temporaryName = some w.temporary.host.current ∧
      w.temporary.host.heap = w.host.heap) ∨
    w.host.heap.findBuffer? w.host.temporaryName = none ∧
      w.temporary.host.current = w.host.heap.size ∧
      w.temporary.host.heap = (w.host.heap.openBuffer w.host.temporaryName).2 := by
  obtain ⟨a, hfind, heq⟩ | ⟨hnone, heq⟩ :=
    (Change.temporaryName.run w).2.host.ensureBuffer_cases w.host.temporaryName
  · have hensured : w.ensured = (a, (Change.temporaryName.run w).2) := by
      rw [ensured, Change.run, onHost, heq]
    rw [temporary, hensured]
    exact .inl ⟨hfind, rfl⟩
  · have hhost : w.ensured.1 = w.host.heap.size ∧
        w.ensured.2.host.heap = (w.host.heap.openBuffer w.host.temporaryName).2 := by
      rw [ensured, Change.run, onHost, heq]
      exact ⟨rfl, rfl⟩
    exact .inr ⟨hnone, hhost⟩

/-- Nothing but the buffers is touched on the way. -/
theorem temporary_rest (w : World) : w.temporary.host.symbols = w.host.symbols ∧
    w.temporary.host.depth = w.host.depth ∧ w.temporary.border = w.border := by
  obtain ⟨a, -, heq⟩ | ⟨-, heq⟩ :=
    (Change.temporaryName.run w).2.host.ensureBuffer_cases w.host.temporaryName <;>
  · rw [temporary, ensured, Change.run, onHost, heq]
    exact ⟨rfl, rfl, rfl⟩

/-- The cells that are there stay as they are when a body starts. -/
theorem keepsCells_temporary (w : World) : w.KeepsCells w.temporary := by
  intro a c hc
  obtain ⟨-, heq⟩ | ⟨-, -, heq⟩ := w.temporary_cases
  · rwa [heq]
  · rw [heq, Heap.get?_openBuffer]
    rwa [Heap.get?_allocate_of_lt _ (Heap.lt_size_of_get? hc)]

/-- The buffer that the body starts in lives, and it has the name that is next. -/
theorem lives_temporary (w : World) :
    w.temporary.host.heap.Lives w.temporary.host.current w.host.temporaryName := by
  obtain ⟨hfind, heq⟩ | ⟨-, hcurrent, heq⟩ := w.temporary_cases
  · rw [heq]
    exact Heap.lives_of_findBuffer? hfind
  · rw [heq, hcurrent]
    exact Heap.lives_openBuffer_iff.mpr (.inr ⟨rfl, rfl⟩)

/-- The buffer is none that lived before, unless one of the name that is next did. -/
theorem temporary_is_new_iff (w : World) :
    (∀ b, w.host.heap.isLiveBuffer b = true → b ≠ w.temporary.host.current) ↔
      w.host.heap.findBuffer? w.host.temporaryName = none := by
  obtain ⟨hfind, -⟩ | ⟨hnone, hcurrent, -⟩ := w.temporary_cases
  · rw [hfind]
    exact iff_of_false (fun h => h _ (Heap.lives_of_findBuffer? hfind).isLiveBuffer rfl) nofun
  · refine iff_of_true (fun b hb heq => ?_) hnone
    rw [hcurrent] at heq
    obtain ⟨text, hcell⟩ := Heap.lives_of_isLiveBuffer hb
    exact Nat.lt_irrefl _ (heq ▸ Heap.lt_size_of_get? hcell)

/-- A new buffer is empty. -/
theorem bufferText_temporary (h : w.host.heap.findBuffer? w.host.temporaryName = none) :
    w.temporary.host.heap.bufferText w.temporary.host.current = "" := by
  obtain ⟨hfind, -⟩ | ⟨-, hcurrent, heq⟩ := w.temporary_cases
  · rw [h] at hfind
    cases hfind
  · rw [heq, hcurrent, Heap.bufferText, Heap.get?_openBuffer, Heap.get?_allocate_self]

end World

/-! ### Entering and leaving -/

/-- The body of a form with a temporary buffer is evaluated in that buffer; what is done at its
end is to kill the buffer, and to have that buffer current again that was so before. -/
theorem Host.wraps_withTemporaryBuffer (body : List Obj) (w : World) :
    (withTemporaryBuffer body).Wraps w (sequence body) w.temporary fun _ w₂ _ w₃ =>
      w₃ = (Undo.killAndSelect w.temporary.host.current w.host.current).run w₂ := by
  have hcurrent : w.ensured.2.host.current = w.host.current := by
    obtain ⟨a, -, heq⟩ | ⟨-, heq⟩ :=
      (Change.temporaryName.run w).2.host.ensureBuffer_cases w.host.temporaryName <;>
    · rw [World.ensured, Change.run, World.onHost, heq]
      rfl
  refine ((turns_change_bind .temporaryName _ w).trans (turns_change_bind _ _ _)).wraps ?_
  refine (wraps_within (u := .killAndSelect w.temporary.host.current w.host.current) ?_).mono
    fun _ _ _ _ _ h => h.2
  change Scope.enter (.temporary w.ensured.1) w.ensured.2 = _
  rw [Scope.enter, hcurrent]
  rfl

/-- So does the evaluation of the form, one level deeper. -/
theorem Host.wraps_evaluate_temporaryBuffer (hlist : w.host.heap.list? form = some (x :: body))
    (hname : w.host.heap.Names x "with-temp-buffer") (hdepth : w.host.depth < maxDepth) :
    (evaluate form).Wraps w (sequence body) w.deeper.temporary fun _ w₂ _ w₃ =>
      w₃.host.current = w.host.current ∧
        w₃.host.heap.isLiveBuffer w.deeper.temporary.host.current = false ∧
          ∀ b, b ≠ w.deeper.temporary.host.current →
            w₃.host.heap.get? b = w₂.host.heap.get? b := by
  refine wraps_evaluate_special (k := .withTemporaryBuffer) hdepth hlist hname
    (wraps_withTemporaryBuffer body w.deeper) fun _ w₂ _ w₃ h => ?_
  subst h
  exact ⟨rfl, Heap.isLiveBuffer_kill _ _, fun b hb => Heap.get?_modify_other _ _ hb⟩

/-- However a form with a temporary buffer comes to be evaluated: its body starts in a live
buffer, and everything that is there is as it was. The buffer is another than all that lived
before, and empty, unless one of them has the name that is next for a temporary buffer. At the
end that buffer is killed, and nothing is done to any other one. -/
theorem temporary_buffers_are_fresh_unless_named {x : Obj} {body : List Obj}
    (hlist : w.host.heap.list? form = some (x :: body))
    (hname : w.host.heap.Names x "with-temp-buffer") (hdepth : w.host.depth < maxDepth) :
    ∃ a w₁, (w₁.host.current = a ∧ w₁.host.heap.isLiveBuffer a = true ∧ w.KeepsCells w₁) ∧
      ((∀ b, w.host.heap.isLiveBuffer b = true → b ≠ a) ↔
        w.host.heap.findBuffer? w.host.temporaryName = none) ∧
      (w.host.heap.findBuffer? w.host.temporaryName = none →
        w₁.host.heap.bufferText a = "") ∧
      (perform (.evaluate form)).Wraps w (Host.sequence body) w₁ fun _ w₂ _ w₃ =>
        w₃.host.current = w.host.current ∧ w₃.host.heap.isLiveBuffer a = false ∧
          ∀ b, b ≠ a → w₃.host.heap.get? b = w₂.host.heap.get? b :=
  ⟨w.deeper.temporary.host.current, w.deeper.temporary,
    ⟨rfl, w.deeper.lives_temporary.isLiveBuffer, w.deeper.keepsCells_temporary⟩,
    w.deeper.temporary_is_new_iff, w.deeper.bufferText_temporary,
    Host.wraps_evaluate_temporaryBuffer hlist hname hdepth⟩

/-- A world in which a form with a temporary buffer has been read. -/
def World.havingRead : World :=
  ((Host.read "(with-temp-buffer (buffer-string))").run (.initial .standard)).2

/-- The first form with a temporary buffer: there is no buffer of its name. -/
theorem temporary_buffers_are_fresh_unless_named_first :
    ∃ a w₁, (∀ b, World.havingRead.host.heap.isLiveBuffer b = true → b ≠ a) ∧
      w₁.host.heap.bufferText a = "" ∧ World.havingRead.KeepsCells w₁ ∧
      (perform (.evaluate (.ref 159))).Wraps World.havingRead (Host.sequence [.ref 157]) w₁
        fun _ w₂ _ w₃ => ∀ b, b ≠ a → w₃.host.heap.get? b = w₂.host.heap.get? b := by
  have hfacts : World.havingRead.host.heap.list? (.ref 159) = some [.ref 156, .ref 157] ∧
      World.havingRead.host.heap.get? 156 = some (.symbol "with-temp-buffer" none none) ∧
      World.havingRead.host.depth < maxDepth ∧
      World.havingRead.host.heap.findBuffer? World.havingRead.host.temporaryName = none := by
    rw [World.havingRead, World.initial_eq]
    decide +kernel
  obtain ⟨hlist, hsymbol, hdepth, hnone⟩ := hfacts
  obtain ⟨a, w₁, ⟨-, -, hkeeps⟩, hnew, hempty, K, hstart, hend⟩ :=
    temporary_buffers_are_fresh_unless_named hlist (.inr ⟨_, _, _, rfl, hsymbol⟩) hdepth
  refine ⟨a, w₁, hnew.mpr hnone, hempty hnone, hkeeps, K, hstart, fun r w₂ h => ?_⟩
  obtain ⟨s, w₃, ⟨-, -, hcells⟩, hback⟩ := hend r w₂ h
  exact ⟨s, w₃, hcells, hback⟩

/-! ### Script functions in a temporary buffer -/

theorem Heap.IsList.of_keepsCells (hk : w.KeepsCells w₁) (hl : w.host.heap.IsList o items) :
    w₁.host.heap.IsList o items := by
  induction hl with
  | nil => exact .nil
  | cons hpair _ ih => exact .cons (hk _ _ hpair) ih

namespace World

namespace KeepsCells

theorem develops (hk : w.KeepsCells w₁) (spared : List Addr) :
    w.host.heap.Develops spared w₁.host.heap := ⟨fun hc => ⟨_, hk _ _ hc, rfl⟩⟩

theorem list? (hk : w.KeepsCells w₁) (hl : w.host.heap.list? o = some items) :
    w₁.host.heap.list? o = some items := by
  obtain ⟨hlist, hlen⟩ := Heap.list?_iff.mp hl
  exact Heap.list?_iff.mpr ⟨hlist.of_keepsCells hk, Nat.le_trans hlen (hk.develops []).size_le⟩

/-- What a form stands for it goes on standing for, if that is in the heap. -/
theorem literal? {d : Cell} (hk : w.KeepsCells w₁) (hr : w.host.heap.literal? o = some (.ref a))
    (ha : w.host.heap.get? a = some d) : w₁.host.heap.literal? o = some (.ref a) := by
  -- a reference that dangles stands for itself, and so it is not this one
  have hshape : w₁.host.heap.shape o = w.host.heap.shape o := by
    cases o with
    | ref b =>
      cases hb : w.host.heap.get? b with
      | some c => rw [Heap.shape_ref hb, Heap.shape_ref (hk _ _ hb)]
      | none =>
        simp only [Heap.literal?, Heap.shape, hb, Option.some.injEq, Obj.ref.injEq] at hr
        rw [← hr, hb] at ha
        cases ha
    | _ => rfl
  unfold Heap.literal? at hr ⊢
  rw [hshape]
  split at hr
  · exact hr
  · split at hr
    · rename_i hquoted
      split at hr
      · rename_i hhead
        have hname := (Heap.names_of_symbolName? hhead).of_develops (hk.develops [])
        simp only [hk.list? hquoted, if_pos (hname.symbolName? (show "quote" ≠ "nil" by decide))]
        exact hr
      · cases hr
    · cases hr
  · exact hr

end KeepsCells

theorem find?_temporary (w : World) (name : String) :
    w.temporary.host.find? name = w.host.find? name := by
  rw [Interpreter.find?, Interpreter.find?, w.temporary_rest.1]

/-- No symbol is made for a buffer. -/
theorem isSole_temporary (h : w.host.IsSole name) : w.temporary.host.IsSole name := by
  intro a value function ha
  rw [find?_temporary]
  obtain ⟨-, heq⟩ | ⟨-, -, heq⟩ := w.temporary_cases
  · exact h a value function (heq ▸ ha)
  · rw [heq, Heap.get?_openBuffer] at ha
    obtain hold | ⟨-, hnew⟩ := Heap.get?_allocate_cases ha
    · exact h a value function hold
    · cases hnew

theorem offers_temporary {b : Builtin} (h : w.Offers b) : w.temporary.Offers b where
  function := by
    obtain ⟨a, value, f, hfind, ha, hf⟩ := h.function
    exact ⟨a, value, f, (w.find?_temporary b.name).trans hfind, w.keepsCells_temporary _ _ ha,
      w.keepsCells_temporary _ _ hf⟩
  sole := isSole_temporary h.sole
  allowed := by rw [w.temporary_rest.2.2, h.allowed]

theorem offersCalls_temporary (h : w.OffersCalls) : w.temporary.OffersCalls where
  forms := {
    list := offers_temporary h.forms.list
    isCons := offers_temporary h.forms.isCons
    car := offers_temporary h.forms.car
    evaluate := offers_temporary h.forms.evaluate
    quote := isSole_temporary h.forms.quote }
  funcall := offers_temporary h.funcall
  reenter := offers_temporary h.reenter

theorem hasClosure_temporary {f : CallForm} (h : w.HasClosure c f a) :
    w.temporary.HasClosure c f a :=
  ⟨h.1.develops (w.keepsCells_temporary.develops f.places), w.temporary_rest.2.2 ▸ h.2.1, h.2.2⟩

/-- A world has gone on to one whose current buffer is temporary: it lives, and it is none of
those that lived before, unless one of them had the name that was next by then. -/
structure InTemporary (w w₁ : World) : Prop where
  live : w₁.host.heap.isLiveBuffer w₁.host.current = true
  fresh : ∃ w₀, w.Sustains w₀ ∧ ((∀ b, w.host.heap.isLiveBuffer b = true → b ≠ w₁.host.current) ↔
    w.host.heap.findBuffer? w₀.host.temporaryName = none)

/-- The calls that a body makes are made in the temporary buffer. -/
theorem Sustains.inTemporary (hs : w.Sustains w₁)
    (hcalling : w₁.deeper.temporary.IsCalling w₂) : w.InTemporary w₂ where
  live := by
    obtain ⟨text, hlives⟩ := w₁.deeper.lives_temporary
    obtain hcell | ⟨_, _, _, hsymbol, -⟩ := hcalling.cell hlives
    · exact hcalling.current ▸ Heap.Lives.isLiveBuffer ⟨text, hcell⟩
    · cases hsymbol
  fresh := by
    have hbuffers := hs.grown.host.heap.sameBuffers
    refine ⟨w₁, hs, ?_⟩
    rw [hcalling.current, ← hbuffers.findBuffer?]
    simp only [← hbuffers.isLiveBuffer]
    exact w₁.deeper.temporary_is_new_iff

/-- A script value is a handle of a form that calls a script function in a temporary buffer. -/
def IsTemporaryForm (w : World) (c : Callable) (v : Value) : Prop :=
  ∃ g x call, w.host.resolve? g.id = some x ∧ w.host.heap.Names x "with-temp-buffer" ∧
    w.IsCallOf c call [] ∧ w.IsListFor v [.handle g, call]

theorem lasting_isTemporaryForm (c : Callable) (v : Value) :
    Lasting fun w => w.IsTemporaryForm c v := by
  refine ⟨fun hg h => ?_⟩
  obtain ⟨g, x, call, hx, hname, hcall, hlist⟩ := h
  exact ⟨g, x, call, hg.host.kept hx, hg.host.heap.names hname,
    (lasting_isCallOf c call []).grows hg hcall, (lasting_isListFor v _).grows hg hlist⟩

theorem IsTemporaryForm.crosses (h : w.IsTemporaryForm c v) : w.Crosses v := by
  obtain ⟨_, _, _, _, _, _, hlist⟩ := h
  exact hlist.crosses

/-- What such a form is a list of. -/
theorem IsTemporaryForm.exists_items (h : w.IsTemporaryForm c v) (ho : w.StandsFor v o) :
    ∃ x call y, w.host.heap.list? o = some [x, y] ∧ w.host.heap.Names x "with-temp-buffer" ∧
      w.IsCallOf c call [] ∧ w.StandsFor call y := by
  obtain ⟨g, x, call, hx, hname, hcall, u, o', os, rfl, hu, hlist, hos⟩ := h
  obtain rfl := Option.some.inj (hu.symm.trans ho)
  cases hos with
  | cons hx' hos => cases hos with
    | cons hy hnil =>
      cases hnil
      obtain rfl := Option.some.inj (hx.symm.trans hx')
      exact ⟨x, call, _, hlist, hname, hcall, hy⟩

end World

/-- The evaluation of such a form runs the script function in the temporary buffer, from which
the buffer is left that was current before. -/
theorem Host.enters_evaluate_temporaryForm (hoffers : w.OffersCalls)
    (hdepth : w.host.depth + 3 < maxDepth) (harity : c.arity.accepts 0 = true)
    (hform : w.IsTemporaryForm c v) (ho : w.StandsFor v o) :
    (evaluate o).Enters w
      (Border.Runs c fun vs w₁ => vs = [] ∧ w.deeper.temporary.IsCalling w₁)
        fun _ _ _ w₃ => w₃.host.current = w.host.current := by
  obtain ⟨x, call, y, hlist, hname, hcall, hy⟩ := hform.exists_items ho
  obtain ⟨z, q, f, p, args, hitems, hz, hq, hclosure, hargs⟩ := hcall.exists_items hy
  cases hargs
  have hk : w.deeper.KeepsCells w.deeper.temporary := w.deeper.keepsCells_temporary
  -- the call is the body of the form
  have hbody : (sequence [y]).Enters w.deeper.temporary
      (Border.Runs c fun vs w₁ => vs = [] ∧ w.deeper.temporary.IsCalling w₁)
        fun r w₂ s _ => TakesIn r w₂ s := by
    rw [sequence_singleton]
    refine (enters_evaluate_funcall (w := w.deeper.temporary)
      (World.offersCalls_temporary (w.revalues_deeper.offersCalls hoffers))
      (by rwa [w.deeper.temporary_rest.2.1]) (hk.list? hitems) (hz.of_develops (hk.develops []))
      (hk.literal? hq.literal hclosure.1.closure) (World.hasClosure_temporary hclosure) .nil
      harity (List.forall_mem_nil _) (List.forall_mem_nil _)).mono fun q w₁ hq =>
        hq.mono fun vs w₂ hvs => ?_
    obtain ⟨hvs, hcalling⟩ := hvs
    cases hvs
    exact ⟨rfl, hcalling⟩
  exact (wraps_evaluate_temporaryBuffer hlist hname (by omega)).enters_trans hbody
    fun _ _ _ _ _ _ _ h => h.1

namespace Border

/-- The form that calls a script function in a temporary buffer is made, unless the registry is
full. -/
theorem succeedsUnless_temporaryForm (c : Callable) (hoffers : w.OffersForms)
    (hdepth : w.host.depth < maxDepth) :
    (keeping (callForm c >>= fun call => symbol "with-temp-buffer" >>= fun head =>
      list [.handle head, call])).SucceedsUnless Failure.IsFull w fun form w₁ =>
        w₁.IsTemporaryForm c form := by
  refine (succeedsUnless_keeping (fun form => World.lasting_isTemporaryForm c form) ?_).mono
    fun _ _ _ h => h.1
  refine (succeedsUnless_callForm c hoffers hdepth).bind fun call w₁ hs₁ hcall => ?_
  refine SucceedsUnless.bind (succeeds_symbol (by cbv)).unless fun g w₂ hs₂ hg => ?_
  obtain ⟨⟨x, hx, hname⟩, -⟩ := hg
  have hcall₂ := (World.lasting_isCallOf c call []).grows hs₂.grown hcall
  obtain ⟨_, _, _, _, _, _, hlist⟩ := id hcall₂
  refine (Succeeds.unless (succeeds_list ((hs₁.trans hs₂).offersForms hoffers).list ?_
    (World.avoidsMark_of_length (by simp)))).mono fun form w₃ hs₃ hform => ?_
  · simpa using ⟨World.crosses_handle hx, hlist.crosses⟩
  · exact ⟨g, x, call, hs₃.grown.host.kept hx, hs₃.grown.host.heap.names hname,
      (World.lasting_isCallOf c call []).grows hs₃.grown hcall₂, hform⟩

/-- Script code has a script function run in a temporary buffer. The function is called by the
body of such a form, so that a live buffer is current, and none of those that lived before unless
one has its name. At the end the buffer is current that was so before. -/
theorem entersUnless_inTemporaryBuffer (hoffers : w.OffersCalls)
    (hdepth : w.host.depth + 3 < maxDepth) (harity : c.arity.accepts 0 = true) :
    (inTemporaryBuffer c).EntersUnless Failure.IsFull w
      (Runs c fun vs w₁ => vs = [] ∧ w.InTemporary w₁)
        fun _ _ _ w₃ => w₃.host.current = w.host.current := by
  have hT : World.Durable fun w₃ => w₃.host.current = w.host.current :=
    ⟨fun hr h => hr.current.trans h⟩
  refine entersUnless_keeping ?_ hT
  rw [requireNullary_of_accepts harity, pure_bind]
  refine (succeedsUnless_temporaryForm c hoffers.forms (by omega)).enters_bind
    fun form w₁ hs₁ hform => Enters.unless ?_
  refine enters_evaluate (hs₁.offersCalls hoffers).forms.evaluate hform.crosses
    (fun o w₂ hs₂ ho => ?_) hT
  have hs := hs₁.trans hs₂
  rw [← hs.grown.current]
  refine (Host.enters_evaluate_temporaryForm (hs.offersCalls hoffers) (by rwa [hs.depth]) harity
    ((World.lasting_isTemporaryForm c form).grows hs₂.grown hform) ho).mono fun q w₃ hq =>
      hq.mono fun vs w₄ hvs => ⟨hvs.1, hs.inTemporary hvs.2⟩

end Border

/-! ### Sessions -/

/-- A buffer that has the name of the first temporary one is taken for it: the body of the form
finds its text, `a`. -/
theorem Transcript.named_buffer_is_taken :
    (Transcript.ofSources ["(progn (set-buffer (get-buffer-create \" *temp*\")) (insert \"a\")
      (with-temp-buffer (equal (buffer-string) \"a\")))"]).printed = [some "t"] := by
  rw [ofSources_eq]
  decide +kernel

end Crossing
