import Crossing.Proofs.Calls
import Crossing.Proofs.Development
import Crossing.Proofs.Strictness

/-!
# How failures pass

A failure passes through all that waits for it, up to the first part that goes on
after failures. Only two kinds of tasks have such parts: the evaluation of the
special form that is for it, and the step of script code that is.

- `Stack.unwinds`: where nothing waits for failures, all that waits fails;
- `Task.strictAt_body`: what the other tasks do does not go on after a failure;
- `Moment.IsStrict.becomes`: nor does a run of them, and while it is not at one of
  the tasks that it starts, nothing waits for failures.
-/

namespace Crossing

variable {α β γ δ : Type}

/-! ### Parts that wait for failures -/

namespace Frame

/-- A frame that goes on after a failure. -/
def isAttempt : Frame α β → Bool
  | .attempt _ => true
  | _ => false

end Frame

namespace Stack

/-- Whether nothing waits for a failure. -/
def isClear {γ : Type} : {α : Type} → Stack γ α → Bool
  | _, .top => true
  | _, .push f rest => !f.isAttempt && rest.isClear

/-- Whether nothing waits for a task. -/
def isOwn {γ : Type} : {α : Type} → Stack γ α → Bool
  | _, .top => true
  | _, .push f rest => !f.isResult && rest.isOwn

/-- Ends all scopes, the innermost one first. -/
def leave {γ : Type} : {α : Type} → Stack γ α → World → World
  | _, .top, w => w
  | _, .push (.scope undo _) rest, w => rest.leave (undo.run w)
  | _, .push _ rest, w => rest.leave w

/-- Clear stacks on top of each other are clear. -/
theorem isClear_append {k : Stack β α} {k' : Stack γ β} (hk : k.isClear = true)
    (hk' : k'.isClear = true) : (k.append k').isClear = true := by
  induction k with
  | top => exact hk'
  | push f rest ih =>
    obtain ⟨hf, hrest⟩ := (Bool.and_eq_true _ _).mp hk
    exact (Bool.and_eq_true _ _).mpr ⟨hf, ih hrest⟩

end Stack

/-- A failure passes through all that waits: nothing is evaluated any more, scopes
are ended, and the whole fails with the same. -/
structure Unwinds (e : Failure) (k : Stack γ α) (w : World) : Prop where
  ends : Moment.Passes ⟨.stop (.failure e), k, w⟩ ⟨.stop (.failure e), .top, k.leave w⟩
  only : ∀ m : Moment γ, Moment.Becomes ⟨.stop (.failure e), k, w⟩ m →
    m.proc = .stop (.failure e)

/-- Where nothing waits for failures, all that waits fails. -/
theorem Stack.unwinds {e : Failure} {k : Stack γ α} {w : World} (hk : k.isClear = true) :
    Unwinds e k w where
  ends := by
    -- the induction is on the frames; no frame takes the failure, and each undoes its scope
    induction k generalizing w with
    | top => exact .refl
    | push f rest ih =>
      obtain ⟨hf, hrest⟩ := (Bool.and_eq_true _ _).mp hk
      cases f with
      | attempt next => cases hf
      | result t next | scope undo next | loop part next => exact .head rfl (ih hrest)
  only := by
    have hinv : ∀ m : Moment γ, Moment.Becomes ⟨.stop (.failure e), k, w⟩ m →
        m.proc = .stop (.failure e) ∧ m.stack.isClear = true := by
      intro m hm
      -- the induction is on the run; each step unwinds one frame
      induction hm with
      | refl => exact ⟨rfl, hk⟩
      | @tail m m' _ hgo ih =>
        obtain ⟨p, k, w⟩ := m
        obtain ⟨rfl, hk⟩ : p = .stop (.failure e) ∧ k.isClear = true := ih
        cases hgo with
        | sweep _ => exact ⟨rfl, hk⟩
        | next hnext =>
          cases k with
          | top => cases hnext
          | push f rest =>
            obtain ⟨hf, hrest⟩ := (Bool.and_eq_true _ _).mp hk
            cases hnext
            cases f with
            | attempt next => cases hf
            | result t next | scope undo next | loop part next => exact ⟨rfl, hrest⟩
    exact fun m hm => (hinv m hm).1

/-! ### Procedures that do not go on after a failure -/

/-- Whether a procedure does not go on after a failure, if it starts with this
heap. What an evaluation does depends on the form. -/
inductive Proc.StrictAt (h : Heap) : {α : Type} → Proc α → Prop where
  | keeps {α : Type} {p : Proc α} (hp : p.Keeps .strict) : StrictAt h p
  | heap {α : Type} {next : Heap → Proc α} (hnext : StrictAt h (next h)) :
    StrictAt h (.ask .heap next)
  | evaluation {α β : Type} {part : Proc β} {next : β → Proc α} (hpart : StrictAt h part)
    (hnext : ∀ x, (next x).Keeps .strict) : StrictAt h (.inside .evaluation part next)

/-- Whether a task goes on after a failure, if it starts with this heap. -/
def Task.recovers (h : Heap) : Task α → Bool
  | .evaluate form =>
    match h.shape form with
    | .cell (.cons head _) => decide (Host.specialForm? h head = some .unwindProtect)
    | _ => false
  | .step (.mk deed _ _) _ => deed.recovers
  | _ => false

namespace Host

open Proc

/-- The evaluation of any other form does not go on after a failure. -/
theorem strictAt_evaluation {h : Heap} {form : Obj}
    (hform : (Task.evaluate form).recovers h = false) : (evaluation form).StrictAt h := by
  refine .evaluation (.heap ?_) fun _ => trivial
  simp only [Task.recovers] at hform
  simp only [Proc.bind]
  split
  · refine .keeps ?_
    split
    · trivial
    · split <;> trivial
  · rename_i head tail hshape
    simp only [hshape, decide_eq_false_iff_not] at hform
    refine .heap (.keeps ?_)
    simp only [Proc.bind]
    split
    · trivial
    · split
      · rename_i f hf
        refine keeps_run (fun hprotect => absurd hf ?_) _
        rw [hprotect]
        exact hform
      · exact (keeps_functionOf head).bind fun f =>
          (keeps_mapM keeps_evaluate _).bind fun _ => keeps_apply _ _
  · exact .keeps trivial

theorem strict_applyFunction (o : Obj) (args : List Obj) :
    (applyFunction o args).Keeps .strict := by
  refine keeps_heap.bind fun h => ?_
  split
  · exact Builtin.strict_run _ args
  · exact keeps_callClosure _ args
  · trivial

theorem strict_application (o : Obj) (args : List Obj) :
    (application o args).Keeps .strict := by
  refine keeps_heap.bind fun h => ?_
  split
  · exact (keeps_functionOf o).bind fun f => strict_applyFunction f args
  · exact (keeps_functionOf o).bind fun f => strict_applyFunction f args
  · exact strict_applyFunction o args

end Host

/-- Only the tasks that are for it go on after a failure. -/
theorem Task.strictAt_body {h : Heap} {t : Task α} (ht : t.recovers h = false) :
    t.body.StrictAt h := by
  cases t with
  | evaluate form => exact Host.strictAt_evaluation ht
  | apply function args => exact .keeps (Host.strict_application function args)
  | close c => exact .keeps (Border.has_closure (F := .strict) c)
  | play steps args => exact .keeps (Script.has_play (F := .strict) args steps)
  | step s args =>
    obtain ⟨deed, target, logged⟩ := s
    exact .keeps (Script.strict_playStep args ht target logged)

/-! ### Runs that do not go on after a failure -/

namespace Frame

/-- Whether a part that waits does not go on after a failure, now and later. -/
def Strict : Frame α β → Prop
  | .result _ next => ∀ a, (next a).Keeps .strict
  | .scope _ next => ∀ a, (next a).Keeps .strict
  | .attempt _ => False
  | .loop part next => part.Keeps .strict ∧ next.Keeps .strict

variable {f : Frame α β}

/-- A strict frame does not go on after a failure. -/
theorem Strict.isAttempt (hf : f.Strict) : f.isAttempt = false := by
  cases f with
  | attempt next => cases hf
  | result t next | scope undo next | loop part next => rfl

theorem Strict.resume (hf : f.Strict) (a : α) (w : World) :
    (f.resume a w).1.Keeps .strict := by
  cases f with
  | result t next | scope undo next => exact hf a
  | attempt next => cases hf
  | loop part next =>
    cases a with
    | true => exact hf
    | false => exact hf.2

theorem Strict.unwind (hf : f.Strict) (e : Failure) (w : World) :
    (f.unwind e w).1.Keeps .strict := by
  cases f with
  | attempt next => cases hf
  | result t next | scope undo next | loop part next => trivial

end Frame

namespace Stack

/-- The parts that wait belong to one task, which does not go on after a failure. -/
def StrictOwn {γ : Type} : {α : Type} → Stack γ α → Prop
  | _, .top => True
  | _, .push f rest => f.isResult = false ∧ f.Strict ∧ rest.StrictOwn

/-- The outermost parts that wait belong to a task that waits for another one, and
does not go on after a failure. -/
def StrictBelow {γ : Type} : {α : Type} → Stack γ α → Prop
  | _, .top => False
  | _, .push f rest => (f.isResult = true ∧ f.Strict ∧ rest.StrictOwn) ∨ rest.StrictBelow

variable {k : Stack γ α}

/-- A stack of strict frames of its own is clear. -/
theorem StrictOwn.isClear (hk : k.StrictOwn) : k.isClear = true := by
  induction k with
  | top => rfl
  | push f rest ih => exact (Bool.and_eq_true _ _).mpr ⟨by rw [hk.2.1.isAttempt]; rfl, ih hk.2.2⟩

/-- A stack that is strict below is not all its own. -/
theorem StrictBelow.isOwn (hk : k.StrictBelow) : k.isOwn = false := by
  induction k with
  | top => cases hk
  | push f rest ih =>
    rw [Stack.isOwn, Bool.and_eq_false_iff]
    rcases hk with ⟨hf, -⟩ | hrest
    · exact .inl (by rw [hf]; rfl)
    · exact .inr (ih hrest)

end Stack

namespace Moment

/-- A task that does not go on after a failure runs, or waits for another one. -/
def IsStrict (m : Moment γ) : Prop :=
  (m.proc.StrictAt m.world.host.heap ∧ m.stack.StrictOwn) ∨ m.stack.StrictBelow

variable {m m' : Moment γ}

/-- What waits stays as it is until it goes on. -/
theorem IsStrict.next_of_waits {p : Proc α} {k : Stack γ α} {w : World}
    (hk : k.StrictBelow) (h : (⟨p, k, w⟩ : Moment γ).next = some m') : m'.IsStrict := by
  unfold Moment.next nextTold at h
  cases p with
  | done a =>
    cases k with
    | top => cases hk
    | push f rest =>
      cases h
      rcases hk with ⟨-, hf, hrest⟩ | hrest
      · exact .inl ⟨.keeps (hf.resume a w), hrest⟩
      · exact .inr hrest
  | stop x =>
    cases k with
    | top => cases hk
    | push f rest =>
      cases x with
      | failure e =>
        cases h
        rcases hk with ⟨-, hf, hrest⟩ | hrest
        · exact .inl ⟨.keeps (hf.unwind e w), hrest⟩
        · exact .inr hrest
      | trap | exhausted => cases h
  | inside s part next =>
    simp only [advance] at h
    split at h
    · cases h
      exact .inr hk
    · cases h
      exact .inr (.inr hk)
  | ask _ _ | act _ _ =>
    cases h
    exact .inr hk
  | task _ _ | attempt _ _ | loop _ _ =>
    cases h
    exact .inr (.inr hk)

/-- A task that runs does so without waiting for failures. -/
theorem IsStrict.next_of_keeps {p : Proc α} {k : Stack γ α} {w : World}
    (hp : p.Keeps .strict) (hk : k.StrictOwn) (h : (⟨p, k, w⟩ : Moment γ).next = some m') :
    m'.IsStrict := by
  unfold Moment.next nextTold at h
  cases p with
  | done a =>
    cases k with
    | top => cases h
    | push f rest =>
      cases h
      exact .inl ⟨.keeps (hk.2.1.resume a w), hk.2.2⟩
  | stop x =>
    cases k with
    | top => cases x <;> cases h
    | push f rest =>
      cases x with
      | failure e =>
        cases h
        exact .inl ⟨.keeps (hk.2.1.unwind e w), hk.2.2⟩
      | trap | exhausted => cases h
  | inside s part next =>
    simp only [advance] at h
    split at h
    · cases h
      exact .inl ⟨.keeps trivial, hk⟩
    · cases h
      exact .inl ⟨.keeps hp.2.1, rfl, hp.2.2, hk⟩
  | ask q next =>
    cases h
    exact .inl ⟨.keeps (hp.2 _), hk⟩
  | act c next =>
    cases h
    exact .inl ⟨.keeps (hp.2 _), hk⟩
  | task t next =>
    cases h
    exact .inr (.inl ⟨rfl, hp.2, hk⟩)
  | attempt part next => cases hp.1
  | loop part next =>
    cases h
    exact .inl ⟨.keeps hp.1, rfl, hp, hk⟩

theorem IsStrict.next (hm : m.IsStrict) (h : m.next = some m') : m'.IsStrict := by
  obtain ⟨p, k, w⟩ := m
  -- what is strict is left to do, or the frames are
  obtain ⟨hp, hk⟩ | hk := hm
  · have hp : p.StrictAt w.host.heap := hp
    cases hp with
    | keeps hp => exact .next_of_keeps hp hk h
    | heap hnext =>
      cases h
      exact .inl ⟨hnext, hk⟩
    | evaluation hpart hnext =>
      unfold Moment.next nextTold at h
      simp only [advance, Scope.enter] at h
      split at h
      · cases h
        exact .inl ⟨.keeps trivial, hk⟩
      · rename_i hs
        split at hs
        · cases hs
        · cases hs
          cases h
          exact .inl ⟨hpart, rfl, hnext, hk⟩
  · exact .next_of_waits hk h

theorem IsStrict.becomes (hm : m.IsStrict) (h : Becomes m m') : m'.IsStrict := by
  induction h with
  | refl => exact hm
  | @tail m m' _ hgo ih =>
    cases hgo with
    | next h => exact ih.next h
    | sweep _ =>
      obtain ⟨hp, hk⟩ | hk := ih
      · refine .inl ⟨?_, hk⟩
        change m.proc.StrictAt m.world.sweep.2.host.heap
        rwa [World.heap_sweep]
      · exact .inr hk

/-- While such a task runs, nothing that belongs to it waits for failures. -/
theorem IsStrict.isClear (hm : m.IsStrict) (hown : m.stack.isOwn = true) :
    m.stack.isClear = true := by
  obtain ⟨-, hk⟩ | hk := hm
  · exact hk.isClear
  · rw [hk.isOwn] at hown
    cases hown

end Moment

end Crossing
