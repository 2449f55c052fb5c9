import Crossing.Proofs.Calls
import Crossing.Proofs.Exchanges
import Crossing.Proofs.Returns

/-!
# Calls by name

A symbol may be called by a form that it is the head of, by `funcall` or `apply`, and by
script code. Each of these ways does one and the same, and ends as that ends.

- `Gives.passes_bind`: what a part gives, every run comes to that does the part;
- `Proc.EndsThrough`, `Proc.EndsAs`: a procedure comes to do another one, and ends by how
  that ends;
- `Heap.IsCall`, `Heap.Quotes`: forms that are calls, and quoted arguments;
- `Host.appliedTo`: what a symbol does with arguments;
- `Border.Crossed`: what script code gets of what a host function has come to;
- `named_calls_agree`: each way to call a symbol applies its function;
- `Transcript.alias_is_called_directly`: but for a function that is a symbol.
-/

namespace Crossing

open Proc

variable {α β γ δ : Type} {w w₁ w₂ : World}

/-! ### Parts of runs -/

namespace Proc

/-- What the run of a procedure gives, every run comes to that is about to do it. -/
theorem passes_of_runWithin {n : Nat} {p : Proc α} {r : Except Failure α} (k : Stack γ α)
    (hp : p.runWithin n w = (r.mapError .failure, w₁)) :
    Moment.Passes ⟨p, k, w⟩ ⟨ofExcept r, k, w₁⟩ := by
  obtain ⟨m, hm, hend⟩ : ∃ m, Moment.Passes ⟨p, k, w⟩ m ∧ Moment.Ends k (p.runWithin n w) m :=
    Moment.exists_passes_runWith (fun t k w => Moment.exists_passes_task n t k w) p k w
  rw [hp] at hend
  cases r <;> obtain rfl := hend <;> exact hm

/-- What a procedure without tasks and loops gives, every run comes to that goes on with it. -/
theorem passes_bind_of_runWithin {p : Proc α} {r : Except Failure α} (f : α → Proc β)
    (k : Stack γ β) (hp : p.runWithin 0 w = (r.mapError .failure, w₁)) :
    Moment.Passes ⟨p >>= f, k, w⟩ ⟨ofExcept r >>= f, k, w₁⟩ := by
  induction p generalizing β w w₁ with
  | done a =>
    cases r <;> cases hp
    exact .refl
  | stop s =>
    cases r <;> cases hp
    exact .refl
  | ask q next ih => exact .head rfl (ih (q.ask w) f k hp)
  | act c next ih => exact .head Moment.next_act (ih (c.run w).1 f k hp)
  | task t next ih => cases r <;> cases hp
  | loop part next _ ih => cases r <;> cases hp
  | inside s part next _ ih =>
    rw [runWithin, runWith] at hp
    cases hs : s.enter w with
    | error e =>
      rw [hs] at hp
      cases r <;> cases hp
      exact .single (Moment.next_refused hs)
    | ok entered =>
      obtain ⟨u, w'⟩ := entered
      rw [hs] at hp
      dsimp only at hp
      refine .head (Moment.next_inside hs) ?_
      -- the part ends with a result, or else the whole fails as the part does
      split at hp
      · rename_i x w'' hpart
        exact (passes_of_runWithin (r := .ok x) _ hpart).trans (.head rfl (ih x f k hp))
      · rename_i e w'' hpart
        cases r <;> cases hp
        exact (passes_of_runWithin (r := .error _) _ hpart).trans (.single rfl)
      · rename_i hne _
        cases r <;> cases hp
        exact absurd rfl (hne _)
  | attempt part next _ ih =>
    rw [runWithin, runWith] at hp
    refine .head rfl ?_
    split at hp
    · rename_i x w'' hpart
      exact (passes_of_runWithin (r := .ok x) _ hpart).trans (.head rfl (ih (.ok x) f k hp))
    · rename_i e w'' hpart
      exact (passes_of_runWithin (r := .error e) _ hpart).trans (.head rfl (ih (.error e) f k hp))
    · rename_i hne _
      cases r <;> cases hp
      exact absurd rfl (hne _)

/-- What is given without a step told goes on with the rest. -/
theorem Gives.passes_bind {p : Proc α} {r : Except Failure α} (hp : p.Gives 0 w r w₁)
    (f : α → Proc β) (k : Stack γ β) :
    Moment.Passes ⟨p >>= f, k, w⟩ ⟨ofExcept r >>= f, k, w₁⟩ :=
  passes_bind_of_runWithin f k (hp 0 (Nat.le_refl 0))

/-! ### Procedures that end as others end -/

/-- Whatever waits for it, a procedure comes to do another one, and once that has ended, it
ends as `finish` says. -/
def EndsThrough (p : Proc β) (w : World) (q : Proc α) (w₁ : World)
    (finish : Except Failure α → World → Except Failure β → World → Prop) : Prop :=
  ∀ (γ : Type) (k : Stack γ β), ∃ k' : Stack γ α, Moment.Passes ⟨p, k, w⟩ ⟨q, k', w₁⟩ ∧
    ∀ r w₂, ∃ s w₃, finish r w₂ s w₃ ∧
      Moment.Passes ⟨ofExcept r, k', w₂⟩ ⟨ofExcept s, k, w₃⟩

/-- A procedure comes to do another one, and ends with the same result or failure, in the
world that is left when `leave` is done. -/
def EndsAs (p : Proc α) (w : World) (q : Proc α) (w₁ : World) (leave : World → World) : Prop :=
  p.EndsThrough w q w₁ fun r w₂ s w₃ => s = r ∧ w₃ = leave w₂

/-- A run from one procedure to the other ends as that does. -/
theorem EndsAs.of_passes {p q : Proc α}
    (h : ∀ {γ : Type} (k : Stack γ α), Moment.Passes ⟨p, k, w⟩ ⟨q, k, w₁⟩) :
    p.EndsAs w q w₁ id :=
  fun _ k => ⟨k, h k, fun r w₂ => ⟨r, w₂, ⟨rfl, rfl⟩, .refl⟩⟩

theorem EndsThrough.trans {p : Proc δ} {q : Proc β} {q' : Proc α}
    {finish : Except Failure β → World → Except Failure δ → World → Prop}
    {finish' : Except Failure α → World → Except Failure β → World → Prop}
    (hp : p.EndsThrough w q w₁ finish) (hq : q.EndsThrough w₁ q' w₂ finish') :
    p.EndsThrough w q' w₂ fun r w s w' =>
      ∃ r' w₁, finish' r w r' w₁ ∧ finish r' w₁ s w' := by
  intro γ k
  obtain ⟨k', hstart, hend⟩ := hp γ k
  obtain ⟨k'', hstart', hend'⟩ := hq γ k'
  refine ⟨k'', hstart.trans hstart', fun r w₃ => ?_⟩
  obtain ⟨r', w₄, hfinish', hback'⟩ := hend' r w₃
  obtain ⟨s, w₅, hfinish, hback⟩ := hend r' w₄
  exact ⟨s, w₅, ⟨r', w₄, hfinish', hfinish⟩, hback'.trans hback⟩

theorem EndsThrough.mono {p : Proc β} {q : Proc α}
    {finish finish' : Except Failure α → World → Except Failure β → World → Prop}
    (h : p.EndsThrough w q w₁ finish)
    (hfinish : ∀ r w s w', finish r w s w' → finish' r w s w') :
    p.EndsThrough w q w₁ finish' := by
  intro γ k
  obtain ⟨k', hstart, hend⟩ := h γ k
  refine ⟨k', hstart, fun r w₂ => ?_⟩
  obtain ⟨s, w₃, hs, hback⟩ := hend r w₂
  exact ⟨s, w₃, hfinish r w₂ s w₃ hs, hback⟩

/-- What a procedure comes to do at once may be done in its place. -/
theorem EndsThrough.after {p q : Proc β} {q' : Proc α}
    {finish : Except Failure α → World → Except Failure β → World → Prop}
    (hq : q.EndsThrough w₁ q' w₂ finish) (hp : p.EndsAs w q w₁ id) :
    p.EndsThrough w q' w₂ finish := by
  refine EndsThrough.mono (EndsThrough.trans hp hq) ?_
  rintro r w s w' ⟨r', w₁, h, rfl, rfl⟩
  exact h

theorem EndsAs.trans {p q q' : Proc α} {leave leave' : World → World}
    (hp : p.EndsAs w q w₁ leave) (hq : q.EndsAs w₁ q' w₂ leave') :
    p.EndsAs w q' w₂ (leave ∘ leave') := by
  refine EndsThrough.mono (EndsThrough.trans hp hq) ?_
  rintro r w s w' ⟨r', w₁, ⟨hr, hw⟩, hs, hw'⟩
  exact ⟨hs.trans hr, hw'.trans (congrArg leave hw)⟩

theorem endsAs_perform (t : Task α) : (perform t).EndsAs w t.body w id := by
  intro γ k
  refine ⟨.push (.result t .done) k, .single rfl, fun r w₂ => ⟨r, w₂, ⟨rfl, rfl⟩, ?_⟩⟩
  cases r <;> exact .single rfl

/-- A scope ends as its body does, and undoes what it did. -/
theorem endsAs_within {s : Scope} {u : Undo} (p : Proc α) (hs : s.enter w = .ok (u, w₁)) :
    (within s p).EndsAs w p w₁ u.run := by
  intro γ k
  refine ⟨.push (.scope u .done) k, .single (Moment.next_inside hs), fun r w₂ =>
    ⟨r, u.run w₂, ⟨rfl, rfl⟩, ?_⟩⟩
  cases r <;> exact .single rfl

end Proc

namespace Proc

variable {p : Proc α} {q : Proc α} {r : Except Failure α} {a : α} {leave : World → World}

theorem gives_query (q : Query α) : (query q).Gives 0 w (.ok (q.ask w)) w := fun _ _ => rfl

/-- What a procedure gives, it ends with. -/
theorem Gives.endsAs (hp : p.Gives 0 w r w₁) : p.EndsAs w (ofExcept r) w₁ id :=
  .of_passes fun k => passes_of_runWithin k (hp 0 (Nat.le_refl 0))

theorem Gives.endsAs_bind (hp : p.Gives 0 w (.ok a) w₁) (f : α → Proc β) :
    (p >>= f).EndsAs w (f a) w₁ id := .of_passes (hp.passes_bind f)

/-- What the body of a task ends with, a procedure goes on with that waits for the task. -/
theorem EndsAs.task_bind {t : Task α} (ht : t.body.EndsAs w (ofExcept (.ok a)) w₁ leave)
    (f : α → Proc β) : (perform t >>= f).EndsAs w (f a) (leave w₁) id := by
  refine .of_passes fun k => ?_
  obtain ⟨k', hstart, hend⟩ := ht _ (.push (.result t f) k)
  obtain ⟨r, w', ⟨hr, hw'⟩, hback⟩ := hend (.ok a) w₁
  rw [hr, hw'] at hback
  exact .head rfl (hstart.trans (hback.tail rfl))

end Proc

/-! ### Forms that are calls -/

namespace Heap

/-- A form is a list with a head and arguments. -/
def IsCall (h : Heap) (form head : Obj) (args : List Obj) : Prop :=
  ∃ tail, h.shape form = .cell (.cons head tail) ∧ h.list? tail = some args

/-- A form is an object in quotes. -/
def Quotes (h : Heap) (form o : Obj) : Prop :=
  ∃ head, h.IsCall form head [o] ∧ h.symbolName? head = some SpecialForm.quote.name

/-- An object stands for a further function: it is a symbol or a lambda list. -/
def isIndirect (h : Heap) (o : Obj) : Bool := (h.symbolName? o).isSome || h.isLambda o

/-- An object is the symbol of a builtin and has it as its function. -/
def Does (h : Heap) (o : Obj) (b : Builtin) : Prop :=
  ∃ a value f, o = .ref a ∧ h.get? a = some (.symbol b.name value (some (.ref f))) ∧
    h.get? f = some (.builtin b)

variable {form : Obj} {a : Addr} {os : List Obj}

/-- A form has a symbol as its head and objects in quotes as its arguments. -/
def CallsDirectly (h : Heap) (form : Obj) (a : Addr) (os : List Obj) : Prop :=
  ∃ args, h.IsCall form (.ref a) args ∧ List.Forall₂ h.Quotes args os

/-- A form calls `funcall` with a symbol in quotes and objects in quotes. -/
def CallsByFuncall (h : Heap) (form : Obj) (a : Addr) (os : List Obj) : Prop :=
  ∃ head q args, h.IsCall form head (q :: args) ∧ h.Does head .funcall ∧
    h.Quotes q (.ref a) ∧ List.Forall₂ h.Quotes args os

/-- A form calls `apply` with a symbol in quotes and a call of `list` with objects in
quotes. -/
def CallsByApply (h : Heap) (form : Obj) (a : Addr) (os : List Obj) : Prop :=
  ∃ head q l head' args, h.IsCall form head [q, l] ∧ h.Does head .apply ∧
    h.Quotes q (.ref a) ∧ h.IsCall l head' args ∧ h.Does head' .list ∧
    List.Forall₂ h.Quotes args os

end Heap

/-- No builtin has the name of a special form. -/
theorem Builtin.ofName?_name (b : Builtin) : SpecialForm.ofName? b.name = none := by
  cases b <;> decide

namespace World

/-- One more evaluation is in progress. -/
def deeper (w : World) : World := { w with host := { w.host with depth := w.host.depth + 1 } }

/-- One evaluation less is in progress. -/
abbrev shallower (w : World) : World := Undo.leaveEvaluation.run w

@[simp] theorem heap_deeper (w : World) : w.deeper.host.heap = w.host.heap := rfl

/-- An evaluation is entered below the limit. -/
theorem enter_evaluation (h : w.host.depth < maxDepth) :
    Scope.evaluation.enter w = .ok (.leaveEvaluation, w.deeper) := by
  rw [Scope.enter, if_neg (Nat.not_le.mpr h)]
  rfl

end World

namespace Host

variable {form head o f : Obj} {args os : List Obj} {a c : Addr} {name : String}
  {value function : Option Obj}

/-! ### Evaluating calls -/

/-- An evaluation ends as finding the value of the form does. -/
theorem endsAs_evaluation (form : Obj) (h : w.host.depth < maxDepth) :
    (evaluation form).EndsAs w (valueOf form) w.deeper World.shallower :=
  endsAs_within _ (World.enter_evaluation h)

/-- The evaluation of a form in quotes leaves no trace. -/
theorem endsAs_quoted (hq : w.host.heap.Quotes form o) (h : w.host.depth < maxDepth) :
    (evaluation form).EndsAs w (ofExcept (.ok o)) w.deeper World.shallower := by
  obtain ⟨head, ⟨tail, hshape, hlist⟩, hname⟩ := hq
  have hspecial : specialForm? w.host.heap head = some .quote := by
    rw [specialForm?, hname]
    rfl
  have hvalue : (valueOf form).Gives 0 w.deeper (.ok o) w.deeper := by
    refine gives_query_bind ?_
    simp only [Query.ask, World.heap_deeper, hshape]
    refine gives_query_bind ?_
    simp only [Query.ask, World.heap_deeper, hlist, hspecial]
    exact gives_pure o
  exact (endsAs_evaluation form h).trans hvalue.endsAs

/-- Arguments in quotes are evaluated one after the other. -/
theorem endsAs_quotedArgs (hargs : List.Forall₂ w.host.heap.Quotes args os)
    (h : args ≠ [] → w.host.depth < maxDepth) (next : List Obj → Proc α) :
    (args.mapM evaluate >>= next).EndsAs w (next os) w id := by
  induction hargs generalizing next with
  | nil => exact .of_passes fun _ => .refl
  | @cons form _ _ _ hq _ ih =>
    have hdepth := h (List.cons_ne_nil _ _)
    rw [List.mapM_cons, bind_assoc]
    refine (EndsAs.task_bind (t := .evaluate form) (endsAs_quoted hq hdepth) _).trans ?_
    rw [bind_assoc]
    exact ih (fun _ => hdepth) _

/-- A call that is no special form finds its function, evaluates its arguments and then
applies the one to the others. -/
theorem endsAs_call (hcall : w.host.heap.IsCall form head args)
    (hspecial : specialForm? w.host.heap head = none) (h : w.host.depth < maxDepth) :
    (evaluation form).EndsAs w
      (functionOf head >>= fun f => args.mapM evaluate >>= fun os => apply f os) w.deeper
      World.shallower := by
  obtain ⟨tail, hshape, hlist⟩ := hcall
  have hvalue : (valueOf form).EndsAs w.deeper
      (functionOf head >>= fun f => args.mapM evaluate >>= fun os => apply f os) w.deeper id := by
    refine (Gives.endsAs_bind (gives_query .heap) _).trans ?_
    simp only [Query.ask, World.heap_deeper, hshape]
    refine (Gives.endsAs_bind (gives_query .heap) _).trans ?_
    simp only [Query.ask, World.heap_deeper, hlist, hspecial]
    exact .of_passes fun _ => .refl
  exact (endsAs_evaluation form h).trans hvalue

/-! ### Applying symbols -/

/-- What a symbol does with arguments, going by its name and its function. -/
def appliedTo (name : String) (function : Option Obj) (os : List Obj) : Proc Obj :=
  match function with
  | some f => applyFunction f os
  | none => signal (.voidFunction name)

theorem gives_functionOf {f : Obj} (ha : w.host.heap.get? a = some (.symbol name value (some f))) :
    (functionOf (.ref a)).Gives 0 w (.ok f) w := by
  refine gives_query_bind ?_
  simp only [Query.ask, Heap.shape_ref ha]
  exact gives_pure f

/-- A symbol without a function is void. -/
theorem gives_functionOf_void (ha : w.host.heap.get? a = some (.symbol name value none)) :
    (functionOf (.ref a)).Gives 0 w (.error (.signal (.voidFunction name))) w := by
  refine gives_query_bind ?_
  simp only [Query.ask, Heap.shape_ref ha]
  exact gives_fail _

/-- To apply a symbol is to apply its function, whatever that is. -/
theorem endsAs_application (ha : w.host.heap.get? a = some (.symbol name value function))
    (os : List Obj) :
    (application (.ref a) os).EndsAs w (appliedTo name function os) w id := by
  refine (Gives.endsAs_bind (gives_query .heap) _).trans ?_
  simp only [Query.ask, Heap.shape_ref ha]
  cases function with
  | some f => exact (gives_functionOf ha).endsAs_bind _
  | none => exact (gives_functionOf_void ha).bind_error.endsAs

/-- A symbol that is applied ends as the content of its function cell does when that is
applied. -/
theorem endsAs_apply (ha : w.host.heap.get? a = some (.symbol name value function))
    (os : List Obj) : (apply (.ref a) os).EndsAs w (appliedTo name function os) w id :=
  (endsAs_perform _).trans (endsAs_application ha os)

/-- What stands for no further function is applied as it is. -/
theorem endsAs_application_direct (hf : w.host.heap.isIndirect f = false) (os : List Obj) :
    (application f os).EndsAs w (applyFunction f os) w id := by
  obtain ⟨hname, hlambda⟩ := Bool.or_eq_false_iff.mp hf
  refine (Gives.endsAs_bind (gives_query .heap) _).trans ?_
  simp only [Query.ask]
  split
  · rename_i hshape
    rw [Heap.symbolName?, hshape] at hname
    cases hname
  · rename_i hshape
    -- the function of a list that is no lambda list is the list
    have hfunction : (functionOf f).Gives 0 w (.ok f) w := by
      refine gives_query_bind ?_
      simp only [Query.ask, hshape, hlambda, Bool.false_eq_true, if_false]
      exact gives_pure f
    exact hfunction.endsAs_bind _
  · exact .of_passes fun _ => .refl

/-- What stands for a further function is no function. -/
theorem gives_applyFunction_indirect (hf : w.host.heap.isIndirect f = true) (os : List Obj) :
    (applyFunction f os).Gives 0 w
      (.error (.signal (.invalidFunction (w.host.heap.print f)))) w := by
  refine gives_query_bind ?_
  simp only [Query.ask]
  -- what is applied indirectly is a symbol or a list, and is resolved once more
  have hshape : (∃ n v g, w.host.heap.shape f = .cell (.symbol n v g)) ∨
      ∃ x y, w.host.heap.shape f = .cell (.cons x y) := by
    rcases (Bool.or_eq_true _ _).mp hf with h | h
    · rw [Heap.symbolName?] at h
      split at h
      · exact .inl ⟨_, _, _, by assumption⟩
      · cases h
    · rw [Heap.isLambda, Heap.head] at h
      split at h
      · exact .inr ⟨_, _, by assumption⟩
      · cases h
  -- a symbol leads to its function, and a list to the closure that it makes
  obtain ⟨n, v, g, hshape⟩ | ⟨x, y, hshape⟩ := hshape
  · rw [hshape]
    exact gives_fail _
  · rw [hshape]
    exact gives_fail _

/-- To apply a builtin is to run it. -/
theorem endsAs_apply_builtin {b : Builtin} (hc : w.host.heap.get? c = some (.builtin b))
    (os : List Obj) : (apply (.ref c) os).EndsAs w (b.run os) w id := by
  refine (endsAs_perform _).trans ((Gives.endsAs_bind (gives_query .heap) _).trans ?_)
  simp only [Query.ask, Heap.shape_ref hc]
  refine (Gives.endsAs_bind (gives_query .heap) _).trans ?_
  simp only [Query.ask, Heap.shape_ref hc]
  exact .of_passes fun _ => .refl

/-- The evaluation of a form with a builtin as its head and quoted arguments runs the
builtin. -/
theorem endsAs_call_builtin {b : Builtin} (hcall : w.host.heap.IsCall form head args)
    (hhead : w.host.heap.Does head b) (hargs : List.Forall₂ w.host.heap.Quotes args os)
    (h : w.host.depth < maxDepth) (h' : args ≠ [] → w.host.depth + 1 < maxDepth) :
    (evaluation form).EndsAs w (b.run os) w.deeper World.shallower := by
  obtain ⟨c, value, f, rfl, hc, hf⟩ := hhead
  have hspecial : specialForm? w.host.heap (.ref c) = none := by
    rw [specialForm?, Heap.symbolName?, Heap.shape_ref hc]
    exact b.ofName?_name
  refine (endsAs_call hcall hspecial h).trans ?_
  refine ((gives_functionOf (w := w.deeper) hc).endsAs_bind _).trans ?_
  exact (endsAs_quotedArgs (w := w.deeper) hargs h' _).trans
    (endsAs_apply_builtin (w := w.deeper) hf os)

/-! ### Lists of arguments -/

end Host

/-- A new list, the last pair of which is made first. -/
def Heap.makeList (h : Heap) : List Obj → Obj × Heap
  | [] => (.nil, h)
  | o :: os => (h.makeList os).2.make (.cons o (h.makeList os).1)

/-- A new list has been made. -/
def World.listing (w : World) (os : List Obj) : World := w.mapHeap fun h => (h.makeList os).2

namespace Host

variable {form head o f : Obj} {args os : List Obj} {a c : Addr} {name : String}
  {value function : Option Obj}

/-- The function `list` gives a new list of its arguments. -/
theorem gives_list (os : List Obj) :
    (list os).Gives 0 w (.ok (w.host.heap.makeList os).1) (w.listing os) := by
  induction os with
  | nil => exact gives_pure Obj.nil
  | cons o os ih => exact Gives.bind ih (gives_change (.make _))

/-- The list has the items, and everything else is as before. -/
theorem buildsTo_listing (w : World) (os : List Obj) : w.BuildsTo (w.listing os) ∧
    (w.listing os).host.heap.list? (w.host.heap.makeList os).1 = some os := by
  obtain ⟨l, w₁, hgives, hb, hl, -⟩ := builds_list os w.host.heap.size.zero_le
  obtain ⟨hl', rfl⟩ := (gives_list os).eq_of_run (Nat.zero_le _) (hgives.run (Nat.zero_le _))
  obtain rfl := Except.ok.inj hl'
  exact ⟨hb, hl.list?⟩

/-- The evaluation of a call of `list` with quoted arguments makes a list. -/
theorem endsAs_call_list (hcall : w.host.heap.IsCall form head args)
    (hhead : w.host.heap.Does head .list) (hargs : List.Forall₂ w.host.heap.Quotes args os)
    (h : w.host.depth < maxDepth) (h' : args ≠ [] → w.host.depth + 1 < maxDepth) :
    (evaluation form).EndsAs w (ofExcept (.ok (w.host.heap.makeList os).1))
      (w.listing os).deeper World.shallower :=
  (endsAs_call_builtin hcall hhead hargs h h').trans (gives_list (w := w.deeper) os).endsAs

/-! ### The ways to call a symbol -/

/-- To evaluate a form with a symbol as its head is to apply what the symbol has as its
function. -/
theorem endsAs_calledDirectly (ha : w.host.heap.get? a = some (.symbol name value function))
    (hspecial : SpecialForm.ofName? name = none) (hcall : w.host.heap.CallsDirectly form a os)
    (h : w.host.depth < maxDepth) (h' : os ≠ [] → w.host.depth + 1 < maxDepth) :
    (evaluate form).EndsAs w
      (function.elim (signal (.voidFunction name)) fun f => application f os) w.deeper
      World.shallower := by
  obtain ⟨args, hform, hargs⟩ := hcall
  have hspecial' : specialForm? w.host.heap (.ref a) = none := by
    rw [specialForm?, Heap.symbolName?, Heap.shape_ref ha]
    exact hspecial
  refine (endsAs_perform _).trans ((endsAs_call hform hspecial' h).trans ?_)
  cases function with
  | none => exact (gives_functionOf_void (w := w.deeper) ha).bind_error.endsAs
  | some f =>
    refine ((gives_functionOf (w := w.deeper) ha).endsAs_bind _).trans ?_
    refine (endsAs_quotedArgs (w := w.deeper) hargs (fun hne => h' ?_) _).trans
      (endsAs_perform _)
    rintro rfl
    cases hargs
    exact hne rfl

/-- To evaluate a call of `funcall` with a quoted symbol is to apply the symbol. -/
theorem endsAs_calledByFuncall
    (ha : w.host.heap.get? a = some (.symbol name value function))
    (hcall : w.host.heap.CallsByFuncall form a os) (h : w.host.depth + 1 < maxDepth) :
    (evaluate form).EndsAs w (appliedTo name function os) w.deeper World.shallower := by
  obtain ⟨head, q, args, hform, hhead, hq, hargs⟩ := hcall
  refine (endsAs_perform _).trans
    ((endsAs_call_builtin hform hhead (.cons hq hargs) (by omega) fun _ => h).trans ?_)
  have haccepts : Builtin.accepts .funcall (Obj.ref a :: os).length = true := by
    simp [Builtin.accepts, Builtin.range]
  rw [Builtin.run, if_pos haccepts]
  exact endsAs_apply (w := w.deeper) ha os

/-- To evaluate a call of `apply` with a quoted symbol and a new list is to apply the symbol
to the items. -/
theorem endsAs_calledByApply
    (ha : w.host.heap.get? a = some (.symbol name value function))
    (hcall : w.host.heap.CallsByApply form a os) (h : w.host.depth + 1 < maxDepth)
    (h' : os ≠ [] → w.host.depth + 2 < maxDepth) :
    (evaluate form).EndsAs w (appliedTo name function os) (w.listing os).deeper
      World.shallower := by
  obtain ⟨_, q, l, head, args, hform, ⟨c, v, b, rfl, hc, hb⟩, hq, hl, hhead, hargs⟩ := hcall
  have hspecial : specialForm? w.host.heap (.ref c) = none := by
    rw [specialForm?, Heap.symbolName?, Heap.shape_ref hc]
    exact Builtin.ofName?_name .apply
  have hargs' : args ≠ [] → w.host.depth + 2 < maxDepth := by
    refine fun hne => h' ?_
    rintro rfl
    cases hargs
    exact hne rfl
  obtain ⟨hbuilds, hlist⟩ := buildsTo_listing w.deeper os
  refine (endsAs_perform _).trans ((endsAs_call hform hspecial (by omega)).trans ?_)
  refine ((gives_functionOf (w := w.deeper) hc).endsAs_bind _).trans ?_
  rw [List.mapM_cons, List.mapM_cons, List.mapM_nil]
  simp only [bind_assoc, pure_bind]
  -- the symbol is evaluated first, then the list is made, which `apply` takes apart again
  refine (EndsAs.task_bind (t := .evaluate q) (endsAs_quoted (w := w.deeper) hq h) _).trans ?_
  refine (EndsAs.task_bind (t := .evaluate l)
    (endsAs_call_list (w := w.deeper) hl hhead hargs h hargs') _).trans ?_
  refine (endsAs_apply_builtin (hbuilds.host.cell hb) _).trans ?_
  change (applyList [.ref a, (w.host.heap.makeList os).1]).EndsAs _ _ _ _
  refine (Gives.endsAs_bind (gives_query .heap) _).trans ?_
  have hitems : Query.heap.ask (w.deeper.listing os) = (w.deeper.listing os).host.heap := rfl
  simp only [hitems, List.getLastD_cons, List.getLastD_nil, List.dropLast, Heap.asList]
  rw [World.heap_deeper] at hlist
  rw [hlist]
  exact endsAs_apply (hbuilds.host.cell ha) os

end Host

/-! ### Calls by script code -/

namespace Proc

/-- A procedure that only adds gives a result or a failure. -/
theorem IsAdditive.exists_gives {p : Proc α} (hp : p.IsAdditive) (w : World) :
    ∃ r w₁, p.Gives 0 w r w₁ := by
  induction p generalizing w with
  | done a => exact ⟨.ok a, w, gives_pure a⟩
  | stop s =>
    obtain ⟨f, rfl⟩ := hp
    exact ⟨.error f, w, gives_fail f⟩
  | ask q next ih =>
    obtain ⟨r, w₁, h⟩ := ih (q.ask w) (hp _) w
    exact ⟨r, w₁, gives_query_bind h⟩
  | act c next ih =>
    obtain ⟨r, w₁, h⟩ := ih (c.run w).1 (hp.2 _) (c.run w).2
    exact ⟨r, w₁, gives_change_bind h⟩
  | task _ _ _ | inside _ _ _ _ _ | attempt _ _ _ _ | loop _ _ _ _ => exact hp.elim

/-- A procedure that waits for a task goes on with what the task ends with. -/
theorem endsThrough_task {t : Task α} {f : α → Proc β} (hf : ∀ a, (f a).IsAdditive) :
    (perform t >>= f).EndsThrough w t.body w fun r w s w' =>
      (ofExcept r >>= f).Gives 0 w s w' := by
  intro γ k
  refine ⟨.push (.result t f) k, .single rfl, fun r w₂ => ?_⟩
  obtain ⟨s, w₃, hs⟩ := ((isAdditive_ofExcept r).bind hf).exists_gives w₂
  refine ⟨s, w₃, hs, .head ?_ (passes_of_runWithin k (hs 0 (Nat.le_refl 0)))⟩
  cases r <;> rfl

/-- A procedure goes on with what a part ends with, once the scope of the part has ended. -/
theorem endsThrough_within {c : Scope} {u : Undo} {p : Proc α} {f : α → Proc β}
    (hc : c.enter w = .ok (u, w₁)) (hf : ∀ a, (f a).IsAdditive) :
    (within c p >>= f).EndsThrough w p w₁ fun r w s w' =>
      (ofExcept r >>= f).Gives 0 (u.run w) s w' := by
  intro γ k
  refine ⟨.push (.scope u f) k, .single (Moment.next_inside hc), fun r w₂ => ?_⟩
  obtain ⟨s, w₃, hs⟩ := ((isAdditive_ofExcept r).bind hf).exists_gives (u.run w₂)
  refine ⟨s, w₃, hs, .head ?_ (passes_of_runWithin k (hs 0 (Nat.le_refl 0)))⟩
  cases r <;> rfl

/-- At the end, only what a part gives back is held besides what was held before. -/
theorem endsThrough_keeping [Holds α] (p : Proc α) :
    (keeping p).EndsThrough w p w fun r w₁ s w₂ => s = r ∧
      w₂ = (Undo.holdOnly (r.toOption.elim [] Holds.handles ++ w.script.held)).run w₁ := by
  intro γ k
  refine ⟨.push (.scope (.holdOnly w.script.held) _) k, .single (Moment.next_inside rfl),
    fun r w₂ => ⟨r, _, ⟨rfl, rfl⟩, ?_⟩⟩
  cases r with
  | ok a => exact .head rfl (.single rfl)
  | error e => exact .single rfl

end Proc

namespace Border

variable {a : Addr} {name : String} {value function : Option Obj} {os : List Obj}

/-- What script code gets of what a host function has come to in some world. A result is
sent while the call is in progress and taken in after it, and of the handles only those of
what is taken in are held besides what was held before. -/
def Crossed (held : List Handle) (r : Except Failure Obj) (w : World) (s : Except Failure Value)
    (w' : World) : Prop :=
  ∃ p w₁ w₂, (ofExcept r >>= Host.send).Gives 0 w p w₁ ∧
    (ofExcept p >>= unpack).Gives 0 (Undo.leaveOutbound.run w₁) s w₂ ∧
    w' = (Undo.holdOnly (s.toOption.elim [] Value.handles ++ held)).run w₂

/-- Handles cross as what they are for. -/
theorem gives_packHandles (hs : List Handle) :
    (packAll (hs.map .handle)).Gives 0 w (.ok (hs.map fun h => .reference h.id)) w := by
  induction hs with
  | nil => exact gives_pure []
  | cons h hs ih =>
    rw [List.map_cons, packAll, List.mapM_cons]
    exact (gives_pure (Parcel.reference h.id)).bind (ih.bind (gives_pure _))

/-- References that resolve are received as their objects. The induction is on the handles.
-/
theorem gives_receiveHandles {hs : List Handle}
    (hos : List.Forall₂ (fun h o => w.host.resolve? h.id = some o) hs os) :
    (Host.receiveAll (hs.map fun h => .reference h.id)).Gives 0 w (.ok os) w := by
  induction hos with
  | nil => exact gives_pure []
  | @cons h o _ os ho _ ih =>
    have hfirst : (Host.receive (.reference h.id)).Gives 0 w (.ok o) w := by
      refine gives_query_bind ?_
      simp only [Query.ask, ho]
      exact gives_pure o
    rw [List.map_cons, Host.receiveAll, List.mapM_cons]
    exact hfirst.bind (ih.bind (gives_pure (o :: os)))

/-- A call of a function that script code has a handle of applies what the handle is for to
what the arguments are for. -/
theorem endsThrough_funcall {h : Handle} {hs : List Handle} {f : Obj}
    (hallowed : (refuseForbiddenHandle h).Gives 0 w (.ok ()) w)
    (hf : w.host.resolve? h.id = some f)
    (hos : List.Forall₂ (fun h o => w.host.resolve? h.id = some o) hs os) :
    (funcall h (hs.map .handle)).EndsThrough w (Host.application f os) w.calling
      (Crossed w.script.held) := by
  have hresolve : (Host.resolve h.id).Gives 0 w.calling (.ok f) w.calling := by
    refine gives_query_bind ?_
    simp only [Query.ask, show w.calling.host.resolve? h.id = some f from hf]
    exact gives_pure f
  let parcels : List Parcel := hs.map fun h => .reference h.id
  -- the application, and from the inside out, sending, taking in and giving up handles
  have happly := (endsThrough_task Host.isAdditive_send (t := .apply f os) (w := w.calling)).after
    ((gives_receiveHandles (w := w.calling) hos).endsAs_bind
      fun os => Host.apply f os >>= Host.send)
  have hinvoke := happly.after (hresolve.endsAs_bind
    fun f => Host.receiveAll parcels >>= fun os => Host.apply f os >>= Host.send)
  have hcross := ((endsThrough_within (w := w) rfl isAdditive_unpack).trans hinvoke).after
    ((gives_packHandles hs).endsAs_bind
      fun parcels => within .outbound (Host.invoke h.id parcels) >>= unpack)
  have hkeep := (endsThrough_keeping _).trans hcross
  refine (hkeep.after (hallowed.endsAs_bind _)).mono ?_
  rintro r w₁ s w₂ ⟨_, w₃, ⟨p, w₄, hsend, hunpack⟩, rfl, rfl⟩
  exact ⟨p, w₄, w₃, hsend, hunpack, rfl⟩

end Border

/-- Dashes stay dashes. -/
theorem canonicalName_canonicalName (n : String) :
    canonicalName (canonicalName n) = canonicalName n := by
  rw [canonicalName, canonicalName, String.map_map]
  congr 1
  funext c
  by_cases hc : c = '_' <;> simp [hc]

/-- A world without what only the border and running code make use of to keep track of
objects: the numbers and the handles of kept objects, and the names remembered for them. -/
def World.untracked (w : World) : World :=
  ⟨w.host.unnumbered, { w.border with tracked := [], lastSerial := 0, symbolCache := [] },
    { w.script with held := [] }, w.clock⟩

namespace World

variable {h : Handle} {name : String}

theorem untracked_retain (w : World) (o : Obj) :
    ((Change.retain o).run w).2.untracked = w.untracked := by
  simp only [Change.run, onHost, Interpreter.retain]
  split <;> rfl

theorem untracked_adopt (w : World) (id : ObjectId) : (w.adopt id).2.untracked = w.untracked := by
  unfold adopt
  split
  · split <;> rfl
  · rfl

/-- To record a name is a matter of what is tracked. -/
theorem untracked_recordName (w : World) (h : Handle) (name : String) :
    ((Change.recordName h name).run w).2.untracked = w.untracked := by
  simp only [Change.run, Border.recordName]
  split
  · split <;> rfl
  · rfl

/-- To cache a symbol is a matter of what is tracked. -/
theorem untracked_cacheSymbol (w : World) (kind : SymbolKind) (name : String) (h : Handle) :
    ((Change.cacheSymbol kind name h).run w).2.untracked = w.untracked := rfl

end World

namespace Border

variable {a : Addr} {name : String} {value function : Option Obj} {os : List Obj}

/-- A symbol that is there is looked up without a trace, but for what is tracked. -/
theorem exists_untracked_internNow (hnil : name ≠ "nil") (ha : w.host.find? name = some a)
    (kind : SymbolKind) :
    ∃ h w₁, (internNow name kind).Gives 0 w (.ok h) w₁ ∧ w₁.untracked = w.untracked := by
  refine ⟨_, _, gives_change_bind (gives_change_bind (gives_change_bind
    (gives_change_bind (gives_change_bind (gives_pure _))))), ?_⟩
  have hintern : (Change.intern name).run w = (.ref a, w) := by
    simp only [Change.run, World.onHost, Interpreter.intern_of_find? hnil ha]
  rw [hintern, World.untracked_cacheSymbol, World.untracked_recordName]
  exact (World.untracked_adopt _ _).trans (World.untracked_retain w _)

/-- To look up the name of a symbol only has the symbol kept, and keeps track of it. -/
theorem untracked_lookup {h : Handle} (hnil : name ≠ "nil") (hname : canonicalName name = name)
    (ha : w.lookedUp? name = some (.ref a))
    (hgives : (lookup name .symbol true).Gives 0 w (.ok h) w₁) : w₁.untracked = w.untracked := by
  have hlookup : ∃ g w₂, (lookup name .symbol true).Gives 0 w (.ok g) w₂ ∧
      w₂.untracked = w.untracked := by
    simp only [lookup, hostName, hname, if_true]
    -- the handle in the cache is revived, or the symbol is looked up anew
    obtain ⟨g, -, -, heq⟩ | heq := w.revive_cases
      ((w.border.symbolCache.find? fun e => e.1 == (.symbol, name)).map Prod.snd)
    · have hrecall : (Change.recallSymbol .symbol name).run w = (some g, w.hold [g]) := heq
      refine ⟨g, w.hold [g], gives_change_bind ?_, rfl⟩
      rw [hrecall]
      exact gives_pure g
    · have hrecall : (Change.recallSymbol .symbol name).run w = (none, w) := heq
      rw [World.lookedUp?, hrecall] at ha
      obtain ⟨c, hc, hca⟩ := Option.map_eq_some_iff.mp ha
      obtain ⟨g, w₂, hg, hw₂⟩ := exists_untracked_internNow hnil hc .symbol
      refine ⟨g, w₂, gives_change_bind ?_, hw₂⟩
      rw [hrecall]
      exact hg
  obtain ⟨g, w₂, hgives', hw₂⟩ := hlookup
  obtain ⟨-, rfl⟩ := hgives.eq_of_run (Nat.zero_le _) (hgives'.run (Nat.zero_le _))
  exact hw₂

/-- A call of the name of a symbol by script code with handles looks the symbol up, and then
applies its function to what the handles are for. -/
theorem exists_endsThrough_call {n : String} {hs : List Handle} (hw : w.Steady)
    (ha : w.host.heap.get? a = some (.symbol name value function)) (hnil : name ≠ "nil")
    (hn : canonicalName n = name) (hlooked : w.lookedUp? name = some (.ref a))
    (hallowed : w.border.config.isForbidden name = false)
    (hos : List.Forall₂ (fun h o => w.host.resolve? h.id = some o) hs os) :
    ∃ h w₁, (lookup name .symbol true).Gives 0 w (.ok h) w₁ ∧ w₁.untracked = w.untracked ∧
      (call n (hs.map .handle)).EndsThrough w (Host.appliedTo name function os) w₁.calling
        (Crossed w.script.held) := by
  have hname : canonicalName name = name := by rw [← hn, canonicalName_canonicalName]
  obtain ⟨h, w₁, hlookup, hkeeps, hsteady, hh⟩ := exists_gives_lookup hw hnil hname hlooked
  have ha₁ := hkeeps.extends.cell ha
  refine ⟨h, w₁, hlookup, untracked_lookup hnil hname hlooked hlookup, ?_⟩
  have hfuncall := endsThrough_funcall
    (gives_refuseForbiddenHandle hsteady ha₁ hh (by rw [hkeeps.config, hallowed])) hh
    (hos.imp fun _ _ ho => hkeeps.kept ho)
  have happly := hfuncall.trans (Host.endsAs_application (w := w₁.calling) ha₁ os)
  have hlooks : (lookup (canonicalName n) .symbol true).Gives 0 w (.ok h) w₁ := by
    rw [hn]
    exact hlookup
  have hrefuse : (refuseForbidden (canonicalName n)).Gives 0 w (.ok ()) w := by
    rw [hn]
    exact gives_refuseForbidden hallowed
  have hkeep := (endsThrough_keeping _).trans (happly.after (hlooks.endsAs_bind
    fun function => funcall function (hs.map .handle)))
  refine (hkeep.after (hrefuse.endsAs_bind _)).mono ?_
  -- what the call of the function gives up is given up again by the call of the name
  rintro r w₂ s w₃ ⟨_, _, ⟨r', w₄, ⟨rfl, rfl⟩, p, w₅, w₆, hsend, hunpack, rfl⟩, rfl, rfl⟩
  exact ⟨p, w₅, w₆, hsend, hunpack, rfl⟩

end Border

/-! ### All ways to call a symbol -/

/-- A symbol that names no special form is called by `funcall`, by `apply`, and by script
code that looks up its name. All come to apply its function to the arguments and end as
that ends: with an error if there is none, or if the function is a symbol or a lambda list.
A form that has the symbol as its head comes to the same, but that it has a symbol or a
lambda list applied too. Only `apply` makes a list first, and only script code has the
symbol kept first. -/
theorem named_calls_agree {a : Addr} {name : String} {value function : Option Obj}
    {os : List Obj} (ha : w.host.heap.get? a = some (.symbol name value function))
    (hspecial : SpecialForm.ofName? name = none) (hroom : w.host.depth + 1 < maxDepth)
    (hroom' : os ≠ [] → w.host.depth + 2 < maxDepth) :
    (∀ form, w.host.heap.CallsByFuncall form a os →
      (Host.evaluate form).EndsAs w (Host.appliedTo name function os) w.deeper
        World.shallower) ∧
    (∀ form, w.host.heap.CallsByApply form a os →
      (Host.evaluate form).EndsAs w (Host.appliedTo name function os) (w.listing os).deeper
        World.shallower) ∧
    (∀ n hs, w.Steady → name ≠ "nil" → canonicalName n = name →
      w.lookedUp? name = some (.ref a) → w.border.config.isForbidden name = false →
      List.Forall₂ (fun h o => w.host.resolve? h.id = some o) hs os →
      ∃ h w₁, (Border.lookup name .symbol true).Gives 0 w (.ok h) w₁ ∧
        w₁.untracked = w.untracked ∧
        (Border.call n (hs.map .handle)).EndsThrough w (Host.appliedTo name function os)
          w₁.calling (Border.Crossed w.script.held)) ∧
    (∀ form, w.host.heap.CallsDirectly form a os →
      ((∀ f, function = some f → w.host.heap.isIndirect f = false) →
        (Host.evaluate form).EndsAs w (Host.appliedTo name function os) w.deeper
          World.shallower) ∧
      ∀ f, function = some f →
        (Host.evaluate form).EndsAs w (Host.application f os) w.deeper World.shallower) ∧
    ∀ f w', function = some f → w'.host.heap.isIndirect f = true →
      (Host.appliedTo name function os).Gives 0 w'
        (.error (.signal (.invalidFunction (w'.host.heap.print f)))) w' := by
  -- the four ways to call: by a form, by `funcall`, by `apply`, and from script code
  refine ⟨fun form hform => ?_, fun form hform => ?_,
    fun n hs hw hnil hn hlooked hallowed hos => ?_, fun form hform => ?_, ?_⟩
  · exact Host.endsAs_calledByFuncall ha hform hroom
  · exact Host.endsAs_calledByApply ha hform hroom hroom'
  · exact Border.exists_endsThrough_call hw ha hnil hn hlooked hallowed hos
  · have hdirect := Host.endsAs_calledDirectly ha hspecial hform (by omega) fun _ => hroom
    constructor
    · intro hfunction
      -- a symbol without a function is void whichever way it is called
      cases function with
      | none => exact hdirect
      | some f =>
        exact hdirect.trans (Host.endsAs_application_direct (w := w.deeper) (hfunction f rfl) os)
    · rintro f rfl
      exact hdirect
  -- what is resolved once more by a form is not by the others
  · rintro f w' rfl hf
    exact Host.gives_applyFunction_indirect hf os

/-- A session in which script code has a handle of a symbol, and the host calls a function
with the symbol in three ways. -/
def callingSession : Moment (List (Except Failure Answer × List Answer)) :=
  Transcript.start .standard [.mk (.lookup "x" .symbol false) (some "x") false,
    .mk (.runSource "(progn (identity 'x) (funcall 'identity 'x) (apply 'identity (list 'x)))")
      none false]

/-- The world in which the host is about to call the function. -/
def callingWorld : World := (callingSession.after 60).world

/-- The forms that the session has read: where they are, their heads, the lists of their
arguments and the arguments. -/
def callingForms : List (Addr × Addr × Addr × List Addr) := [
  (162, 49, 161, [160]), (160, 158, 159, [156]), (169, 101, 168, [164, 166]),
  (164, 158, 163, [49]), (166, 158, 165, [156]), (178, 103, 177, [171, 175]),
  (171, 158, 170, [49]), (175, 3, 174, [173]), (173, 158, 172, [156])]

/-- All three ways run the builtin, and so does a call by script code. -/
theorem named_calls_agree_identity :
    (Host.evaluate (.ref 162)).EndsAs callingWorld
        (Host.applyFunction (.ref 48) [.ref 156]) callingWorld.deeper World.shallower ∧
      (Host.evaluate (.ref 169)).EndsAs callingWorld
        (Host.applyFunction (.ref 48) [.ref 156]) callingWorld.deeper World.shallower ∧
      (Host.evaluate (.ref 178)).EndsAs callingWorld
        (Host.applyFunction (.ref 48) [.ref 156]) (callingWorld.listing [.ref 156]).deeper
        World.shallower ∧
      ∃ w₁, (Border.call "identity" [.handle ⟨1, ⟨1⟩⟩]).EndsThrough callingWorld
        (Host.applyFunction (.ref 48) [.ref 156]) w₁
        (Border.Crossed callingWorld.script.held) := by
  have hfacts : (∀ i < 60, (callingSession.after i).Licensed .careful) ∧
      callingWorld.host.depth + 2 < maxDepth ∧
      callingWorld.border.config.isForbidden "identity" = false ∧
      callingWorld.lookedUp? "identity" = some (.ref 49) ∧
      callingWorld.host.resolve? ⟨1⟩ = some (.ref 156) ∧
      callingWorld.host.heap.isIndirect (.ref 48) = false ∧
      callingWorld.host.heap.symbolName? (.ref 158) = some "quote" ∧
      [49, 101, 103, 3].map callingWorld.host.heap.get? =
        [("identity", 48), ("funcall", 100), ("apply", 102), ("list", 2)].map
          (fun p => some (.symbol p.1 none (some (.ref p.2)))) ∧
      [100, 102, 2].map callingWorld.host.heap.get? =
        [.funcall, .apply, .list].map (fun b => some (.builtin b)) ∧
      ∀ c ∈ callingForms,
        callingWorld.host.heap.shape (.ref c.1) = .cell (.cons (.ref c.2.1) (.ref c.2.2.1)) ∧
          callingWorld.host.heap.list? (.ref c.2.2.1) = some (c.2.2.2.map .ref) := by
    rw [callingWorld, callingSession, Transcript.start_eq]
    decide +kernel
  have hsteady : callingWorld.Steady := by
    rw [callingWorld]
    exact Transcript.steady_of_reaches (Moment.reaches_after hfacts.1)
  obtain ⟨w, hw⟩ : ∃ w, callingWorld = w := ⟨_, rfl⟩
  rw [hw] at hfacts hsteady ⊢
  obtain ⟨-, hdepth, hallowed, hlooked, hx, hbuiltin, hquote, hsymbols, hbuiltins,
    hforms⟩ := hfacts
  simp only [List.map_cons, List.map_nil, List.cons.injEq, and_true] at hsymbols hbuiltins
  obtain ⟨hidentity, hfuncall, happly, hlist⟩ := hsymbols
  obtain ⟨hfuncall', happly', hlist'⟩ := hbuiltins
  -- the forms of the example call by their heads
  have hform : ∀ (a head tail : Addr) (args : List Addr), (a, head, tail, args) ∈ callingForms →
      w.host.heap.IsCall (.ref a) (.ref head) (args.map .ref) :=
    fun _ _ _ _ h => ⟨_, (hforms _ h).1, (hforms _ h).2⟩
  have hquotes : ∀ a tail o : Addr, (a, 158, tail, [o]) ∈ callingForms →
      w.host.heap.Quotes (.ref a) (.ref o) :=
    fun a tail o h => ⟨_, hform a 158 tail [o] h, hquote⟩
  obtain ⟨hbyFuncall, hbyApply, hbyName, hdirect, -⟩ := named_calls_agree hidentity
    (by decide) (by omega) fun _ : [Obj.ref 156] ≠ [] => hdepth
  obtain ⟨_, w₁, -, -, hcall⟩ := hbyName "identity" [⟨1, ⟨1⟩⟩] hsteady (by decide)
    (by decide +kernel) hlooked hallowed (.cons hx .nil)
  have hdirectly : w.host.heap.CallsDirectly (.ref 162) 49 [.ref 156] :=
    ⟨_, hform 162 49 161 [160] (by decide), .cons (hquotes 160 159 156 (by decide)) .nil⟩
  have hbyFuncall' : w.host.heap.CallsByFuncall (.ref 169) 49 [.ref 156] :=
    ⟨_, _, _, hform 169 101 168 [164, 166] (by decide), ⟨_, _, _, rfl, hfuncall, hfuncall'⟩,
      hquotes 164 163 49 (by decide), .cons (hquotes 166 165 156 (by decide)) .nil⟩
  have hbyApply' : w.host.heap.CallsByApply (.ref 178) 49 [.ref 156] :=
    ⟨_, _, _, _, _, hform 178 103 177 [171, 175] (by decide), ⟨_, _, _, rfl, happly, happly'⟩,
      hquotes 171 170 49 (by decide), hform 175 3 174 [173] (by decide),
      ⟨_, _, _, rfl, hlist, hlist'⟩, .cons (hquotes 173 172 156 (by decide)) .nil⟩
  refine ⟨(hdirect _ hdirectly).1 fun f hf => ?_, hbyFuncall _ hbyFuncall', hbyApply _ hbyApply',
    _, hcall⟩
  obtain rfl := Option.some.inj hf
  exact hbuiltin

/-- What a step reports of an object: how it prints, or the message of a failure. -/
def StepReport.outcome? (r : StepReport) : Option (Except String String) :=
  match r.result with
  | .ok (.object o) => some (.ok o.printed)
  | .error (.failure e) => some (.error e.message)
  | _ => none

/-- A session in which a symbol has another symbol as its function. -/
def aliasSession : List Step := [
  .mk (.runSource "(fset 'f 'car)") none false,
  .mk (.runSource "(f '(1 2))") none false,
  .mk (.runSource "(funcall 'f '(1 2))") none false,
  .mk (.runSource "(apply 'f (list '(1 2)))") none false]

/-- The form with the symbol as its head has a value, the others fail. -/
theorem Transcript.alias_is_called_directly :
    (Transcript.ofSteps .standard aliasSession).map StepReport.outcome? =
      [some (.ok "car"), some (.ok "1"),
        some (.error "Host error (invalid-function): car"),
        some (.error "Host error (invalid-function): car")] := by
  rw [ofSteps_eq]
  decide +kernel

end Crossing
