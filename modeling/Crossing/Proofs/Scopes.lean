import Crossing.Proofs.Development
import Crossing.Proofs.Quiet
import Crossing.Proofs.Unwinding

/-!
# Scopes that end with a task

The special forms that bind variables or choose a buffer, and the application of a
closure, do nothing any more once a scope of theirs has ended. So what waits for the
end of such a scope are only further scopes, and the task ends when they have.

- `Proc.ScopesLast`: a procedure does nothing after its scopes;
- `Moment.ScopesLast.becomes`: nor does a run of it, in what belongs to the task itself;
- `Stack.ScopesOnly.ends`: where only scopes wait, they are ended one after the other;
- `Moment.exists_end_of_inside`: how a task ends that has started a scope;
- `Call.scopesLast_start`: the tasks that this holds of.
-/

namespace Crossing

variable {α β γ : Type}

/-! ### Procedures -/

namespace Proc

/-- Whether a procedure does nothing after its scopes, repeats nothing and waits for no
failure. Whether it has scopes at all depends on `allowed`. -/
def ScopesLast (allowed : Bool) : {α : Type} → Proc α → Prop
  | _, .done _ => True
  | _, .stop _ => True
  | _, .ask _ next => ∀ x, (next x).ScopesLast allowed
  | _, .act _ next => ∀ x, (next x).ScopesLast allowed
  | _, .task _ next => ∀ x, (next x).ScopesLast allowed
  | _, .inside _ part next =>
    allowed = true ∧ part.ScopesLast allowed ∧ ∀ x, ∃ b, next x = .done b
  | _, .attempt _ _ => False
  | _, .loop _ _ => False

variable {p : Proc α} {f : α → Proc β} {b : Bool}

/-- Scopes come after what has none. -/
theorem ScopesLast.bind (hp : p.ScopesLast false) (hf : ∀ a, (f a).ScopesLast b) :
    (p >>= f).ScopesLast b := by
  change (p.bind f).ScopesLast b
  induction p with
  | done a => exact hf a
  | stop s => trivial
  | ask q next ih | act c next ih | task t next ih => exact fun x => ih x (hp x) hf
  | inside s part next _ _ => exact absurd hp.1 Bool.false_ne_true
  | attempt part next _ _ | loop part next _ _ => exact hp.elim

theorem scopesLast_check (r : Except Signal α) : (Host.check r).ScopesLast b := by
  cases r <;> trivial

theorem scopesLast_mapM {g : α → Proc β} (hg : ∀ a, (g a).ScopesLast false) (as : List α) :
    (as.mapM g).ScopesLast false := by
  induction as with
  | nil => trivial
  | cons a as ih =>
    rw [List.mapM_cons]
    exact (hg a).bind fun b => ih.bind fun bs => trivial

theorem scopesLast_within {s : Scope} (hp : p.ScopesLast true) : (within s p).ScopesLast true :=
  ⟨rfl, hp, fun x => ⟨x, rfl⟩⟩

end Proc

namespace Host

open Proc

variable {b : Bool}

theorem scopesLast_sequence (forms : List Obj) : (sequence forms).ScopesLast b := by
  have hfold : ∀ last, (forms.foldlM (fun _ form => evaluate form) last).ScopesLast b := by
    induction forms with
    | nil => exact fun _ => trivial
    | cons form forms ih => exact fun _ o => ih o
  exact hfold _

theorem scopesLast_list (items : List Obj) : (list items).ScopesLast false := by
  unfold list
  generalize Obj.nil = rest
  induction items with
  | nil => trivial
  | cons o items ih => exact .bind ih fun _ _ => trivial

theorem scopesLast_bindOneByOne (bindings : List (Addr × Obj)) (body : List Obj) :
    (bindOneByOne bindings body).ScopesLast true := by
  induction bindings with
  | nil => exact scopesLast_sequence body
  | cons b bindings ih => exact fun _ => scopesLast_within ih

theorem scopesLast_bindTogether (bindings : List (Addr × Obj)) (body : List Obj) :
    (bindTogether bindings body).ScopesLast true := by
  refine .bind (scopesLast_mapM (fun b => ?_) bindings) fun values =>
    scopesLast_within (scopesLast_sequence body)
  exact fun _ => trivial

theorem scopesLast_letForm (sequential : Bool) (args : List Obj) :
    (letForm sequential args).ScopesLast true := by
  unfold letForm
  split
  · trivial
  · refine fun h => (scopesLast_check _).bind fun items =>
      (scopesLast_check _).bind fun bindings => ?_
    split
    · exact scopesLast_bindOneByOne bindings _
    · exact scopesLast_bindTogether bindings _

theorem scopesLast_withBuffer (args : List Obj) : (withBuffer args).ScopesLast true := by
  unfold withBuffer
  split
  · trivial
  · exact fun o h => (scopesLast_check _).bind fun a => scopesLast_within (scopesLast_sequence _)

theorem scopesLast_withTemporaryBuffer (body : List Obj) :
    (withTemporaryBuffer body).ScopesLast true :=
  fun _ _ => scopesLast_within (scopesLast_sequence body)

theorem scopesLast_callClosure (l : Lambda) (args : List Obj) :
    (callClosure l args).ScopesLast true := by
  unfold callClosure
  split
  · split
    · exact (scopesLast_list _).bind fun items => scopesLast_within (scopesLast_sequence _)
    · exact scopesLast_within (scopesLast_sequence _)
  · trivial

end Host

/-! ### Tasks -/

/-- Whether a procedure does nothing after its scopes, if it starts with this heap. -/
inductive Proc.ScopesLastAt : Heap → {α : Type} → Proc α → Prop where
  | last {h : Heap} {α : Type} {p : Proc α} (hp : p.ScopesLast true) : ScopesLastAt h p
  | heap {h : Heap} {α : Type} {next : Heap → Proc α} (hnext : ScopesLastAt h (next h)) :
    ScopesLastAt h (.ask .heap next)
  | make {h : Heap} {α : Type} {f : Fresh} {next : Obj → Proc α}
    (hnext : ScopesLastAt (h.make f).2 (next (h.make f).1)) : ScopesLastAt h (.act (.make f) next)
  | evaluation {h : Heap} {α β : Type} {part : Proc β} {next : β → Proc α}
    (hpart : ScopesLastAt h part) (hnext : ∀ x, ∃ b, next x = .done b) :
    ScopesLastAt h (.inside .evaluation part next)

/-- Whether a special form has scopes. -/
def SpecialForm.isScoped : SpecialForm → Bool
  | .letParallel | .letSequential | .withBuffer | .withTemporaryBuffer => true
  | _ => false

theorem SpecialForm.scopesLast_run {f : SpecialForm} (hf : f.isScoped = true) (args : List Obj) :
    (f.run args).ScopesLast true := by
  cases f with
  | letParallel => exact Host.scopesLast_letForm false args
  | letSequential => exact Host.scopesLast_letForm true args
  | withBuffer => exact Host.scopesLast_withBuffer args
  | withTemporaryBuffer => exact Host.scopesLast_withTemporaryBuffer args
  | _ => cases hf

namespace Heap

/-- The special form that a form is. -/
def specialForm? (h : Heap) (form : Obj) : Option SpecialForm :=
  match h.shape form with
  | .cell (.cons head _) => Host.specialForm? h head
  | _ => none

/-- Whether an object is a closure. -/
def isClosure (h : Heap) (o : Obj) : Bool :=
  match h.shape o with
  | .cell (.closure _) => true
  | _ => false

/-- Whether a closure is run when an object is applied: the object itself, that of a
symbol, or the one that a lambda list stands for. -/
def appliesClosure (h : Heap) (o : Obj) : Bool :=
  match h.shape o with
  | .cell (.symbol _ _ (some f)) => h.isClosure f
  | .cell (.cons _ _) => h.isLambda o
  | _ => h.isClosure o

end Heap

/-- Whether a task is the evaluation of a special form with scopes, or the application of
a closure, if it starts with this heap. -/
def Task.isScoped (h : Heap) : Task α → Bool
  | .evaluate form =>
    match h.specialForm? form with
    | some f => f.isScoped
    | none => false
  | .apply f _ => h.appliesClosure f
  | _ => false

namespace Host

open Proc

/-- A form with a scope is evaluated with its scopes last. -/
theorem scopesLastAt_evaluation {h : Heap} {form : Obj}
    (hform : (Task.evaluate form).isScoped h = true) : (evaluation form).ScopesLastAt h := by
  refine .evaluation (.heap ?_) fun x => ⟨x, rfl⟩
  simp only [Task.isScoped, Heap.specialForm?] at hform
  simp only [Proc.bind]
  -- the form has a special head, or the head is a function with a scope
  split at hform
  · rename_i f hf
    split at hf
    · rename_i head tail hshape
      rw [hshape]
      refine .heap ?_
      simp only [Proc.bind]
      split
      · exact .last trivial
      · rw [hf]
        exact .last (f.scopesLast_run hform _)
    · cases hf
  · cases hform

/-- A closure is applied with its scopes last. -/
theorem scopesLastAt_applyFunction {h : Heap} {o : Obj} (args : List Obj)
    (ho : h.isClosure o = true) : (applyFunction o args).ScopesLastAt h := by
  refine .heap ?_
  unfold Heap.isClosure at ho
  simp only [Proc.bind]
  split at ho
  · rename_i l hshape
    rw [hshape]
    exact .last (scopesLast_callClosure l args)
  · cases ho

/-- A closure that was just made is applied with its scopes last, since it is one. -/
theorem scopesLastAt_makeClosure {h : Heap} (forms args : List Obj) :
    (makeClosure forms >>= fun f => applyFunction f args).ScopesLastAt h := by
  refine .heap ?_
  cases hl : Lambda.ofForms h forms with
  | error e =>
    simp only [Proc.bind, hl]
    exact .last trivial
  | ok l =>
    simp only [Proc.bind, hl]
    refine .make (scopesLastAt_applyFunction args ?_)
    simp [Heap.isClosure, Heap.shape, Heap.make, Heap.allocate, Heap.cellOf, Heap.get?]

/-- What is applied with a scope has its scopes last. -/
theorem scopesLastAt_application {h : Heap} {o : Obj} {args : List Obj}
    (ho : (Task.apply o args).isScoped h = true) : (application o args).ScopesLastAt h := by
  refine .heap ?_
  simp only [Task.isScoped, Heap.appliesClosure] at ho
  simp only [Proc.bind]
  split at ho
  -- a symbol stands for its function, a list for the closure that it makes, and a closure for
  -- itself
  · rename_i name value f hshape
    rw [hshape]
    refine .heap ?_
    simp only [Proc.bind]
    rw [hshape]
    exact scopesLastAt_applyFunction args ho
  · rename_i head tail hshape
    rw [hshape]
    refine .heap ?_
    simp only [Proc.bind]
    rw [hshape]
    simp only [ho, if_true]
    exact scopesLastAt_makeClosure _ args
  · have hclosure := ho
    unfold Heap.isClosure at hclosure
    split at hclosure
    · rename_i l hshape
      rw [hshape]
      exact scopesLastAt_applyFunction args ho
    · cases hclosure

end Host

/-- A task with a scope has its scopes last. -/
theorem Task.scopesLastAt_body {h : Heap} {t : Task α} (ht : t.isScoped h = true) :
    t.body.ScopesLastAt h := by
  cases t with
  | evaluate form => exact Host.scopesLastAt_evaluation ht
  | apply f args => exact Host.scopesLastAt_application ht
  | close c | play steps args | step s args => cases ht

/-! ### What waits -/

/-- A task is waited for, and what follows does nothing after its scopes. -/
def Frame.IsAwaiting : Frame α β → Prop
  | .result _ next => ∀ x, (next x).ScopesLast true
  | _ => False

namespace Stack

variable {ok : Undo → Prop}

/-- Only scopes wait that are all there is left to be done, and each ends as `ok` says. -/
def ScopesOnly {γ : Type} (ok : Undo → Prop) : {α : Type} → Stack γ α → Prop
  | _, .top => True
  | _, .push (.scope u next) rest => ok u ∧ (∀ x, ∃ b, next x = .done b) ∧ rest.ScopesOnly ok
  | _, .push _ _ => False

/-- Outermost there wait only such scopes, for a task that waits for another one. -/
def ScopesBelow {γ : Type} (ok : Undo → Prop) : {α : Type} → Stack γ α → Prop
  | _, .top => False
  | _, .push f rest => (f.IsAwaiting ∧ rest.ScopesOnly ok) ∨ rest.ScopesBelow ok

/-- A stack with something else below scopes is not all scopes. -/
theorem ScopesBelow.isOwn {k : Stack γ α} (hk : k.ScopesBelow ok) : k.isOwn = false := by
  induction k with
  | top => cases hk
  | push f rest ih =>
    rw [Stack.isOwn, Bool.and_eq_false_iff]
    rcases hk with ⟨hf, -⟩ | hrest
    · cases f with
      | result t next => exact .inl rfl
      | scope undo next | attempt next | loop part next => exact hf.elim
    · exact .inr (ih hrest)

/-- A stack of scopes is all its own. -/
theorem ScopesOnly.isOwn {k : Stack γ α} (hk : k.ScopesOnly ok) : k.isOwn = true := by
  induction k with
  | top => rfl
  | push f rest ih =>
    cases f with
    | scope u next => exact ih hk.2.2
    | result t next | attempt next | loop part next => exact hk.elim

theorem ScopesOnly.mono {ok' : Undo → Prop} {k : Stack γ α} (hk : k.ScopesOnly ok)
    (h : ∀ u, ok u → ok' u) : k.ScopesOnly ok' := by
  induction k with
  | top => trivial
  | push f rest ih =>
    cases f with
    | scope u next => exact ⟨h u hk.1, hk.2.1, ih hk.2.2⟩
    | result t next | attempt next | loop part next => exact hk.elim

/-- Where only scopes wait, they are ended one after the other. -/
theorem ScopesOnly.ends {k : Stack γ α} (hk : k.ScopesOnly ok) {r : Except Failure α}
    {s : Except Failure γ} {w w' : World}
    (h : Moment.Becomes ⟨Proc.ofExcept r, k, w⟩ (⟨Proc.ofExcept s, .top, w'⟩ : Moment γ)) :
    w' = k.leave w := by
  -- the induction is on the frames; each of them ends its scope and goes on at once
  induction k generalizing w with
  | top => exact (Moment.becomes_ended_iff.mp h).2.symm
  | push f rest ih =>
    cases f with
    | scope u next =>
      obtain ⟨-, hnext, hrest⟩ := hk
      cases r with
      | ok a =>
        obtain ⟨b, hb⟩ := hnext a
        have hstep : (⟨Proc.ofExcept (.ok a), .push (.scope u next) rest, w⟩ : Moment γ).next =
            some ⟨Proc.ofExcept (.ok b), rest, u.run w⟩ := by
          rw [show (Proc.ofExcept (.ok b) : Proc _) = next a from hb.symm]
          rfl
        exact ih hrest ((Moment.becomes_next_iff hstep rfl Moment.next_ended).mp h)
      | error e =>
        have hstep : (⟨Proc.ofExcept (.error e), .push (.scope u next) rest, w⟩ : Moment γ).next =
            some ⟨Proc.ofExcept (.error e), rest, u.run w⟩ := rfl
        exact ih hrest ((Moment.becomes_next_iff hstep rfl Moment.next_ended).mp h)
    | result t next | attempt next | loop part next => exact hk.elim

/-- What the ends of the scopes keep one by one, they keep together. -/
theorem ScopesOnly.leave {k : Stack γ α} (hk : k.ScopesOnly ok) {δ : Type} (view : World → δ)
    (hview : ∀ u w, ok u → view (u.run w) = view w) (w : World) :
    view (k.leave w) = view w := by
  induction k generalizing w with
  | top => rfl
  | push f rest ih =>
    cases f with
    | scope u next => exact (ih hk.2.2 (u.run w)).trans (hview u w hk.1)
    | result t next | attempt next | loop part next => exact hk.elim

end Stack

/-- To start an evaluation leaves the heap as it is. -/
theorem Scope.heap_of_evaluation {u : Undo} {w w₁ : World}
    (hs : Scope.evaluation.enter w = .ok (u, w₁)) : w₁.host.heap = w.host.heap := by
  simp only [enter] at hs
  split at hs
  · cases hs
  · cases hs
    rfl

/-! ### Moments -/

namespace Moment

variable {m m' : Moment γ} {ok : Undo → Prop}

/-- A task that does nothing after its scopes runs, or waits for another one. The scopes
of its own that wait end as `ok` says. -/
def ScopesLast (ok : Undo → Prop) (m : Moment γ) : Prop :=
  (m.proc.ScopesLastAt m.world.host.heap ∧ m.stack.ScopesOnly ok) ∨ m.stack.ScopesBelow ok

/-- The end of a scope that is about to start in a task itself is as `ok` says. -/
def OpensAs (ok : Undo → Prop) (m : Moment γ) : Prop :=
  ∀ {β : Type} {s : Scope} {part : Proc β} {next : β → Proc m.α} {u : Undo} {w₁ : World},
    m.proc = .inside s part next → m.stack.isOwn = true → s.enter m.world = .ok (u, w₁) → ok u

/-- What waits stays as it is until it goes on. -/
theorem ScopesLast.next_of_waits {p : Proc α} {k : Stack γ α} {w : World}
    (hk : k.ScopesBelow ok) (h : (⟨p, k, w⟩ : Moment γ).next = some m') : m'.ScopesLast ok := by
  cases p with
  | done a =>
    cases k with
    | top => cases hk
    | push f rest =>
      cases h
      rcases hk with ⟨hf, hrest⟩ | hrest
      · cases f with
        | result t next => exact .inl ⟨.last (hf a), hrest⟩
        | scope undo next | attempt next | loop part next => exact hf.elim
      · exact .inr hrest
  | stop x =>
    cases k with
    | top => cases hk
    | push f rest =>
      cases x with
      | failure e =>
        cases h
        rcases hk with ⟨hf, hrest⟩ | hrest
        · cases f with
          | result t next => exact .inl ⟨.last trivial, hrest⟩
          | scope undo next | attempt next | loop part next => exact hf.elim
        · exact .inr hrest
      | trap | exhausted => cases h
  | inside s part next =>
    cases hs : s.enter w with
    | error f =>
      rw [next_refused hs] at h
      cases h
      exact .inr hk
    | ok entered =>
      rw [next_inside hs] at h
      cases h
      exact .inr (.inr hk)
  | ask _ _ | act _ _ =>
    cases h
    exact .inr hk
  | task _ _ | attempt _ _ | loop _ _ =>
    cases h
    exact .inr (.inr hk)

/-- Where only scopes wait, a result or a failure ends the innermost one. -/
theorem ScopesLast.next_of_ended {r : Except Failure α} {k : Stack γ α} {w : World}
    (hk : k.ScopesOnly ok) (h : (⟨Proc.ofExcept r, k, w⟩ : Moment γ).next = some m') :
    m'.ScopesLast ok := by
  -- what has ended goes to the frame on top, which ends its scope
  cases k with
  | top =>
    rw [next_ended] at h
    cases h
  | push f rest =>
    cases f with
    | scope u next =>
      obtain ⟨-, hnext, hrest⟩ := hk
      cases r with
      | ok a =>
        obtain ⟨b, hb⟩ := hnext a
        cases h
        refine .inl ⟨.last ?_, hrest⟩
        show (next a).ScopesLast true
        rw [hb]
        trivial
      | error e =>
        cases h
        exact .inl ⟨.last trivial, hrest⟩
    | result t next | attempt next | loop part next => exact hk.elim

/-- A task that runs does nothing after its scopes. -/
theorem ScopesLast.next_of_last {p : Proc α} {k : Stack γ α} {w : World}
    (hp : p.ScopesLast true) (hk : k.ScopesOnly ok) (hopens : OpensAs ok ⟨p, k, w⟩)
    (h : (⟨p, k, w⟩ : Moment γ).next = some m') : m'.ScopesLast ok := by
  cases p with
  | done a => exact next_of_ended (r := .ok a) hk h
  | stop x =>
    cases x with
    | failure e => exact next_of_ended (r := .error e) hk h
    | trap | exhausted => cases k <;> cases h
  | ask q next =>
    cases h
    exact .inl ⟨.last (hp _), hk⟩
  | act c next =>
    cases h
    exact .inl ⟨.last (hp _), hk⟩
  | task t next =>
    cases h
    exact .inr (.inl ⟨hp, hk⟩)
  | inside s part next =>
    obtain ⟨-, hpart, hnext⟩ := hp
    cases hs : s.enter w with
    | error f =>
      rw [next_refused hs] at h
      cases h
      exact .inl ⟨.last trivial, hk⟩
    | ok entered =>
      rw [next_inside hs] at h
      cases h
      exact .inl ⟨.last hpart, hopens rfl hk.isOwn hs, hnext, hk⟩
  | attempt part next | loop part next => exact hp.elim

theorem ScopesLast.next (hm : m.ScopesLast ok) (hopens : m.OpensAs ok) (h : m.next = some m') :
    m'.ScopesLast ok := by
  obtain ⟨p, k, w⟩ := m
  -- scopes are last in what is left to do, or in the frames
  obtain ⟨hp, hk⟩ | hk := hm
  · have hp : p.ScopesLastAt w.host.heap := hp
    cases hp with
    | last hp => exact next_of_last hp hk hopens h
    | heap hnext =>
      cases h
      exact .inl ⟨hnext, hk⟩
    | make hnext =>
      cases h
      exact .inl ⟨hnext, hk⟩
    | @evaluation _ _ _ part next hpart hnext =>
      -- an evaluation that is refused for its depth has entered nothing
      cases hs : Scope.evaluation.enter w with
      | error f =>
        rw [next_refused hs] at h
        cases h
        exact .inl ⟨.last trivial, hk⟩
      | ok entered =>
        obtain ⟨u, w₁⟩ := entered
        rw [next_inside hs] at h
        cases h
        have hheap := Scope.heap_of_evaluation hs
        refine .inl ⟨?_, hopens rfl hk.isOwn hs, hnext, hk⟩
        show part.ScopesLastAt w₁.host.heap
        rwa [hheap]
  · exact next_of_waits hk h

/-- In a run, what belongs to the task itself does nothing after its scopes. -/
theorem ScopesLast.reaches (hm : m.ScopesLast ok) (h : Reaches (OpensAs ok) m m') :
    m'.ScopesLast ok := by
  induction h with
  | refl => exact hm
  | @tail m m' _ hgo ih =>
    obtain ⟨hopens, hgo⟩ := hgo
    cases hgo with
    | next h => exact ih.next hopens h
    | sweep _ =>
      obtain ⟨hp, hk⟩ | hk := ih
      · refine .inl ⟨?_, hk⟩
        change m.proc.ScopesLastAt m.world.sweep.2.host.heap
        rwa [World.heap_sweep]
      · exact .inr hk

/-- A scope that a task itself is about to start is the last thing that it does, and only
scopes wait for its end. -/
theorem ScopesLast.of_isOwn {s : Scope} {part : Proc β} {next : β → Proc α} {k : Stack γ α}
    {w : World} (hm : (⟨.inside s part next, k, w⟩ : Moment γ).ScopesLast ok)
    (hown : k.isOwn = true) : (∀ x, ∃ b, next x = .done b) ∧ k.ScopesOnly ok := by
  obtain ⟨hp, hk⟩ | hk := hm
  · have hp : (Proc.inside s part next).ScopesLastAt w.host.heap := hp
    refine ⟨?_, hk⟩
    cases hp with
    | last hp => exact hp.2.2
    | evaluation hpart hnext => exact hnext
  · rw [hk.isOwn] at hown
    cases hown

/-- If a task ends after it has started a scope of its own, then what is inside of the
scope ends, and then the scope and those around it. -/
theorem exists_end_of_inside {s : Scope} {part : Proc β} {next : β → Proc α} {k : Stack γ α}
    {u : Undo} {w w₁ w' : World} {r : Except Failure γ} (hnext : ∀ x, ∃ b, next x = .done b)
    (hk : k.ScopesOnly ok) (hs : s.enter w = .ok (u, w₁))
    (h : Becomes ⟨.inside s part next, k, w⟩ (⟨Proc.ofExcept r, .top, w'⟩ : Moment γ)) :
    ∃ r' w₂, Becomes (⟨part, .top, w₁⟩ : Moment β) ⟨Proc.ofExcept r', .top, w₂⟩ ∧
      w' = k.leave (u.run w₂) := by
  have hstart := (becomes_next_iff (next_inside hs) rfl next_ended).mp h
  obtain ⟨m', -, hend⟩ | ⟨r', w₂, hpart, hrest⟩ :=
    Becomes.atop_cases (m := ⟨part, .top, w₁⟩) (k := .push (.scope u next) k) hstart
  · -- something still waits at a moment inside of the scope
    have htop : (m'.atop (.push (.scope u next) k)).stack.isTop = true := by
      rw [← hend]
      rfl
    obtain ⟨p, k', w₂⟩ := m'
    cases k' <;> cases htop
  · have hscope : (Stack.push (.scope u next) k).ScopesOnly fun _ => True :=
      ⟨trivial, hnext, hk.mono fun _ _ => trivial⟩
    exact ⟨r', w₂, hpart, hscope.ends hrest⟩

end Moment

namespace Call

/-- The evaluation of a special form with scopes and the application of a closure do
nothing after their scopes. -/
theorem scopesLast_start {c : Call α} {ok : Undo → Prop}
    (hc : c.task.isScoped c.world.host.heap = true) : c.start.ScopesLast ok :=
  .inl ⟨Task.scopesLastAt_body hc, trivial⟩

end Call

end Crossing
