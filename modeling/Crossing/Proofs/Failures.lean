import Crossing.Proofs.Start
import Crossing.Proofs.Unwinding

/-!
# Failures pass unchanged

A failure passes through everything that waits, whichever side it belongs to, and
comes out as it was raised.

- `Call.Leads`: a call comes to another one, by way of calls none of which goes on
  after a failure;
- `Call.isClear_of_leads`: nothing that waits then waits for a failure;
- `protected_ends_iff`: what becomes of a form with cleanup forms;
- `HostError`, `BorderError`: the forms that an error has on either side, and
  `passed_raised`: passing it from side to side changes nothing;
- `failures_pass_unchanged` puts these together.
-/

namespace Crossing

variable {α β γ : Type}

/-! ### Calls by way of calls -/

namespace Call

/-- Whether the task goes on after a failure. -/
def recovers (c : Call α) : Bool := c.task.recovers c.world.host.heap

/-- A run of the one task comes to start the other, with `k` waiting for it. -/
def Starts (c : Call α) (k : Stack α β) (c' : Call β) : Prop :=
  ∃ (δ : Type) (next : β → Proc δ) (own : Stack α δ), own.isOwn = true ∧
    k = .push (.result c'.task next) own ∧
    c.start.Becomes ⟨.task c'.task next, own, c'.world⟩

/-- A run of the one task comes to the other, by way of tasks none of which goes on
after a failure, with `k` waiting for it. -/
inductive Leads : {α β : Type} → Call α → Stack α β → Call β → Prop where
  | refl {α : Type} (c : Call α) : Leads c .top c
  | step {α β γ : Type} {c : Call α} {c' : Call β} {c'' : Call γ} {k : Stack α β}
    {k' : Stack β γ} (hc : c.recovers = false) (hstart : c.Starts k c')
    (h : Leads c' k' c'') : Leads c (k'.append k) c''

variable {c : Call α} {c' : Call β} {k : Stack α β}

/-- A call that recovers from nothing starts strictly. -/
theorem isStrict_start (hc : c.recovers = false) : c.start.IsStrict :=
  .inl ⟨Task.strictAt_body hc, trivial⟩

/-- A call that is started by one that recovers from nothing has a clear stack below it. -/
theorem isClear_of_starts (hc : c.recovers = false) (h : c.Starts k c') : k.isClear = true := by
  obtain ⟨δ, next, own, hown, rfl, hm⟩ := h
  exact ((isStrict_start hc).becomes hm).isClear hown

/-- What starts a call becomes the start of it, on top of what was there. -/
theorem becomes_of_starts (h : c.Starts k c') : c.start.Becomes (c'.start.atop k) := by
  obtain ⟨δ, next, own, -, rfl, hm⟩ := h
  exact hm.tail (.next rfl)

/-- Nothing that waits on the way waits for a failure. -/
theorem isClear_of_leads (h : c.Leads k c') : k.isClear = true := by
  induction h with
  | refl c => rfl
  | step hc hstart _ ih => exact Stack.isClear_append ih (isClear_of_starts hc hstart)

/-- What leads to a call becomes the start of it, on top of what was there. -/
theorem becomes_of_leads (h : c.Leads k c') : c.start.Becomes (c'.start.atop k) := by
  induction h with
  | refl c => exact .refl
  | @step _ _ _ c c' c'' k k' _ hstart _ ih =>
    have hm := (becomes_of_starts hstart).trans (Moment.Becomes.atop ih k)
    have hatop : (c''.start.atop k').atop k = c''.start.atop (k'.append k) :=
      congrArg (fun k => Moment.mk c''.task.body k c''.world) (Stack.append_assoc .top k' k)
    rwa [hatop] at hm

/-- If one of them fails, so do all. -/
theorem becomes_failure_of_leads {e : Failure} {w : World} (h : c.Leads k c')
    (hfail : c'.Ends (.error e) w) : c.start.Becomes ⟨.stop (.failure e), k, w⟩ :=
  (becomes_of_leads h).trans (Moment.Becomes.atop hfail k)

end Call

/-! ### Cleanup forms -/

/-- The body and the cleanup forms of a form that has them. -/
def Heap.protection? (h : Heap) (form : Obj) : Option (Obj × List Obj) :=
  match h.shape form with
  | .cell (.cons head tail) =>
    if Host.specialForm? h head = some .unwindProtect then
      match h.list? tail with
      | some (body :: cleanup) => some (body, cleanup)
      | _ => none
    else none
  | _ => none

/-- A form that protects is a list that starts with `unwind-protect`. -/
theorem Heap.protection_cases {h : Heap} {form body : Obj} {cleanup : List Obj}
    (hform : h.protection? form = some (body, cleanup)) :
    ∃ head tail, h.shape form = .cell (.cons head tail) ∧
      Host.specialForm? h head = some .unwindProtect ∧ h.list? tail = some (body :: cleanup) := by
  unfold protection? at hform
  split at hform
  · rename_i head tail hshape
    split at hform
    · rename_i hhead
      split at hform
      · rename_i hlist
        cases hform
        exact ⟨head, tail, hshape, hhead, hlist⟩
      · cases hform
    · cases hform
  · cases hform

/-- The world with one more evaluation in progress. -/
def World.evaluating (w : World) : World :=
  { w with host := { w.host with depth := w.host.depth + 1 } }

namespace Host

open Proc

/-- What remains to be done once the body has ended. -/
def cleanUp (cleanup : List Obj) (r : Except Failure Obj) : Proc Obj := do
  let _ ← sequence cleanup
  ofExcept r

variable {form body : Obj} {cleanup : List Obj} {w : World}

/-- The body is evaluated first. -/
theorem becomes_protected_iff {s : Except Failure Obj} {w' : World}
    (hform : w.host.heap.protection? form = some (body, cleanup))
    (hdepth : w.host.depth < maxDepth) :
    Moment.Becomes ⟨evaluation form, .top, w⟩ (⟨ofExcept s, .top, w'⟩ : Moment Obj) ↔
      Moment.Becomes ⟨.task (.evaluate body) .done,
        .push (.attempt (cleanUp cleanup)) (.push (.scope .leaveEvaluation .done) .top),
        w.evaluating⟩ (⟨ofExcept s, .top, w'⟩ : Moment Obj) := by
  -- the form is looked at, then its list, and then the body is tried
  obtain ⟨head, tail, hshape, hhead, hlist⟩ := Heap.protection_cases hform
  have hstart : (⟨evaluation form, .top, w⟩ : Moment Obj).next =
      some ⟨valueOf form, .push (.scope .leaveEvaluation .done) .top, w.evaluating⟩ := by
    simp only [Moment.next, Moment.nextTold, Moment.advance, evaluation, within, Scope.enter,
      if_neg (Nat.not_le.mpr hdepth)]
    rfl
  have hvalue : (⟨valueOf form, .push (.scope .leaveEvaluation .done) .top, w.evaluating⟩ :
      Moment Obj).next = some ⟨evaluateList head tail form,
        .push (.scope .leaveEvaluation .done) .top, w.evaluating⟩ := by
    have hheap : w.evaluating.host.heap.shape form = .cell (.cons head tail) := hshape
    simp only [valueOf, heap, query, Bind.bind, Proc.bind, Moment.next, Moment.nextTold,
      Moment.advance, Query.ask, hheap]
  have hlist : (⟨evaluateList head tail form, .push (.scope .leaveEvaluation .done) .top,
      w.evaluating⟩ : Moment Obj).next = some ⟨unwindProtect (body :: cleanup),
        .push (.scope .leaveEvaluation .done) .top, w.evaluating⟩ := by
    have hheap : w.evaluating.host.heap.list? tail = some (body :: cleanup) := hlist
    have hhead' : specialForm? w.evaluating.host.heap head = some .unwindProtect := hhead
    simp only [evaluateList, heap, query, Bind.bind, Proc.bind, Moment.next, Moment.nextTold,
      Moment.advance, Query.ask, hheap, hhead', SpecialForm.run]
  -- the cleanup runs whatever the body came to
  have hattempt : (⟨unwindProtect (body :: cleanup), .push (.scope .leaveEvaluation .done) .top,
      w.evaluating⟩ : Moment Obj).next = some ⟨.task (.evaluate body) .done,
        .push (.attempt (cleanUp cleanup)) (.push (.scope .leaveEvaluation .done) .top),
        w.evaluating⟩ := rfl
  rw [Moment.becomes_next_iff hstart rfl Moment.next_ended,
    Moment.becomes_next_iff hvalue rfl Moment.next_ended,
    Moment.becomes_next_iff hlist rfl Moment.next_ended,
    Moment.becomes_next_iff hattempt rfl Moment.next_ended]

/-- A cleanup is run to its end: a failure replaces the result, and otherwise the result
stands. -/
theorem becomes_cleanUp_iff {r s : Except Failure Obj} {w' : World} :
    Moment.Becomes ⟨cleanUp cleanup r, .push (.scope .leaveEvaluation .done) .top, w⟩
        (⟨ofExcept s, .top, w'⟩ : Moment Obj) ↔
      ∃ e w₁, Evaluates cleanup w e w₁ ∧ s = e.elim r .error ∧
        w' = Undo.leaveEvaluation.run w₁ := by
  refine Moment.becomes_sequence_iff.trans (exists_congr fun e => exists_congr fun w₁ =>
    and_congr_right fun _ => ?_)
  have hend : e.elim (ofExcept r) fail = ofExcept (e.elim r .error) := by cases e <;> rfl
  have hnext : ∀ x : Except Failure Obj, (⟨ofExcept x, .push (.scope .leaveEvaluation .done) .top,
      w₁⟩ : Moment Obj).next = some ⟨ofExcept x, .top, Undo.leaveEvaluation.run w₁⟩ := by
    intro x
    cases x <;> rfl
  have hsafe : ∀ x : Except Failure Obj, (⟨ofExcept x, .push (.scope .leaveEvaluation .done) .top,
      w₁⟩ : Moment Obj).isSafepoint = false := by
    intro x
    cases x <;> rfl
  rw [hend, Moment.becomes_next_iff (hnext _) (hsafe _) Moment.next_ended,
    Moment.becomes_ended_iff]
  exact and_congr eq_comm eq_comm

/-- A form with cleanup forms: the body is evaluated, then the cleanup forms are, up
to the first that fails, and the whole ends the way that the body did, unless a
cleanup form fails. -/
theorem protected_ends_iff {s : Except Failure Obj} {w' : World}
    (hform : w.host.heap.protection? form = some (body, cleanup))
    (hdepth : w.host.depth < maxDepth) :
    (Call.mk (.evaluate form) w).Ends s w' ↔
      ∃ r w₁ e w₂, (Call.mk (.evaluate body) w.evaluating).EndsAmid r w₁ ∧
        Evaluates cleanup w₁ e w₂ ∧ s = e.elim r .error ∧
        w' = Undo.leaveEvaluation.run w₂ := by
  refine (becomes_protected_iff hform hdepth).trans (Moment.becomes_task_iff.trans
    (exists_congr fun r => exists_congr fun w₁ => ?_))
  have hnext : (⟨ofExcept r >>= .done, .push (.attempt (cleanUp cleanup))
      (.push (.scope .leaveEvaluation .done) .top), w₁⟩ : Moment Obj).next =
        some ⟨cleanUp cleanup r, .push (.scope .leaveEvaluation .done) .top, w₁⟩ := by
    cases r <;> rfl
  have hsafe : (⟨ofExcept r >>= .done, .push (.attempt (cleanUp cleanup))
      (.push (.scope .leaveEvaluation .done) .top), w₁⟩ : Moment Obj).isSafepoint = false := by
    cases r <;> rfl
  rw [Moment.becomes_next_iff hnext hsafe Moment.next_ended, becomes_cleanUp_iff]
  constructor
  · rintro ⟨hbody, e, w₂, h⟩
    exact ⟨e, w₂, hbody, h⟩
  · rintro ⟨e, w₂, hbody, h⟩
    exact ⟨hbody, e, w₂, h⟩

end Host

/-! ### Errors on either side -/

/-- The error of the host that a failure is. -/
def Failure.signal? : Failure → Option Signal
  | .signal s => some s
  | _ => none

/-- An error as operations of the border give it. -/
inductive BorderError where
  /-- An error that the host signalled. -/
  | host (symbol message : String)
  | other (f : Failure) (h : f.signal? = none)

/-- An error as operations of the host give it. -/
inductive HostError where
  | signal (symbol message : String)
  /-- An error of the border on its way through the host. -/
  | border (e : BorderError)

namespace BorderError

/-- An error that comes to the border out of the host. -/
def ofHost : HostError → BorderError
  | .signal symbol message => .host symbol message
  | .border e => e

/-- The wording of an error. -/
def message : BorderError → String
  | .host symbol message => "Host error (" ++ symbol ++ "): " ++ message
  | .other f _ => f.message

/-- The class of an error, as script code sees it. -/
def label : BorderError → String
  | .host _ _ => "Host"
  | .other f _ => f.label

end BorderError

/-- The two sides that tasks belong to. -/
inductive Side where
  | host
  | script
deriving DecidableEq, Repr

/-- The side that a task runs on. -/
def Task.side : Task α → Side
  | .evaluate _ | .apply _ _ => .host
  | .close _ | .play _ _ | .step _ _ => .script

/-- The sides of the tasks that are waited for, the innermost one first. -/
def Stack.sides {γ : Type} : {α : Type} → Stack γ α → List Side
  | _, .top => []
  | _, .push (.result t _) rest => t.side :: rest.sides
  | _, .push _ rest => rest.sides

/-- An error on its way, in the form that it has on the side where it is. -/
inductive PassingError where
  | inHost (e : HostError)
  | atBorder (e : BorderError)

namespace PassingError

/-- An error that is passed to a side takes the form that it has there. -/
def pass : PassingError → Side → PassingError
  | .inHost e, .host => .inHost e
  | .inHost e, .script => .atBorder (.ofHost e)
  | .atBorder e, .host => .inHost (.border e)
  | .atBorder e, .script => .atBorder e

/-- The form that an error has once it is at the border. -/
def out : PassingError → BorderError
  | .inHost e => .ofHost e
  | .atBorder e => e

/-- Passing an error from side to side does not change what comes out. -/
theorem out_pass (e : PassingError) (side : Side) : (e.pass side).out = e.out := by
  cases e <;> cases side <;> rfl

/-- What comes out in the end is decided by the first border that a failure passes. -/
theorem out_foldl_pass (sides : List Side) (e : PassingError) :
    (sides.foldl pass e).out = e.out := by
  induction sides generalizing e with
  | nil => rfl
  | cons side sides ih => exact (ih _).trans (out_pass e side)

end PassingError

namespace Failure

/-- The form in which a failure is raised: errors of the host in the host, all others
at the border. -/
def raised (f : Failure) : PassingError :=
  match h : f.signal? with
  | some s => .inHost (.signal s.symbol s.message)
  | none => .atBorder (.other f h)

/-- The form in which a failure comes out. -/
def comesOut (f : Failure) : BorderError :=
  match h : f.signal? with
  | some s => .host s.symbol s.message
  | none => .other f h

/-- A failure is worded as the error that comes out. -/
theorem message_comesOut (f : Failure) : f.comesOut.message = f.message := by
  cases f <;> rfl

/-- A failure comes out under its own label. -/
theorem label_comesOut (f : Failure) : f.comesOut.label = f.label := by
  cases f <;> rfl

/-- A failure comes out as it was raised. -/
theorem out_raised (f : Failure) : f.raised.out = f.comesOut := by
  cases f <;> rfl

end Failure

/-! ### The whole -/

/-- Failures pass unchanged.

A failure of a task that does not go on after failures ends the task, whatever its
code is at: nothing is evaluated any more, scopes are ended. If a task that it comes
to by way of such tasks fails, they all fail with the same, and whichever sides the
failure passes on its way, it comes out as the error that it is; a signal of the host
does so as an error of the host, once. A form with cleanup forms goes on with those,
and then ends the way its body did, unless one of them fails. -/
theorem failures_pass_unchanged :
    (∀ {α β : Type} {c : Call α} {k : Stack α β} {e : Failure} {w : World},
      c.recovers = false → k.isOwn = true →
        c.start.Becomes ⟨.stop (.failure e), k, w⟩ → Unwinds e k w) ∧
    (∀ {α β : Type} {c : Call α} {k : Stack α β} {c' : Call β} {e : Failure} {w : World},
      c.Leads k c' → c'.Ends (.error e) w →
        c.start.Becomes ⟨.stop (.failure e), k, w⟩ ∧ Unwinds e k w ∧
          c.Ends (.error e) (k.leave w) ∧
          (k.sides.foldl PassingError.pass e.raised).out = e.comesOut) ∧
    (∀ s : Signal, (Failure.signal s).comesOut = .host s.symbol s.message) ∧
    ∀ {form body : Obj} {cleanup : List Obj} {w w' : World} {s : Except Failure Obj},
      w.host.heap.protection? form = some (body, cleanup) → w.host.depth < maxDepth →
        ((Call.mk (.evaluate form) w).Ends s w' ↔
          ∃ r w₁ e w₂, (Call.mk (.evaluate body) w.evaluating).EndsAmid r w₁ ∧
            Evaluates cleanup w₁ e w₂ ∧ s = e.elim r .error ∧
            w' = Undo.leaveEvaluation.run w₂) := by
  refine ⟨?own, ?calls, fun _ => rfl, Host.protected_ends_iff⟩
  case own =>
    intro α β c k e w hc hown hm
    have hstrict := (Call.isStrict_start hc).becomes hm
    exact Stack.unwinds (hstrict.isClear hown)
  case calls =>
    intro α β c k c' e w hleads hfail
    have hunwinds : Unwinds e k w := Stack.unwinds (Call.isClear_of_leads hleads)
    have hm := Call.becomes_failure_of_leads hleads hfail
    refine ⟨hm, hunwinds, ?_, ?_⟩
    · exact hm.trans (Relation.ReflTransGen.mono (fun _ _ h => .next h) _ _ hunwinds.ends)
    · rw [PassingError.out_foldl_pass, Failure.out_raised]

/-- Where the form is that is about to be evaluated. -/
def Moment.evaluated? : Moment γ → Option Addr
  | ⟨.task (.evaluate (.ref a)) _, _, _⟩ => some a
  | _ => none

/-- The failure that a run has ended with. -/
def Moment.failure? : Moment γ → Option Failure
  | ⟨.stop (.failure e), .top, _⟩ => some e
  | _ => none

/-- A failure that was run to is passed. -/
theorem Moment.passes_of_failure? {m : Moment γ} {n : Nat} {e : Failure}
    (h : (m.after n).failure? = some e) :
    Passes m ⟨Proc.ofExcept (.error e), .top, (m.after n).world⟩ := by
  have hm := passes_after m n
  generalize m.after n = m₁ at h hm
  unfold failure? at h
  split at h
  · cases h
    exact hm
  · cases h

/-- A failure that was run to is what a run becomes. -/
theorem Moment.becomes_of_failure? {m : Moment γ} {n : Nat} {e : Failure}
    (h : (m.after n).failure? = some e) :
    m.Becomes ⟨Proc.ofExcept (.error e), .top, (m.after n).world⟩ :=
  Relation.ReflTransGen.mono (fun _ _ h => .next h) _ _ (passes_of_failure? h)

/-- The failure that a run gives. -/
def Proc.Result.failure? : Proc.Result α → Option Failure
  | (.error (.failure e), _) => some e
  | _ => none

/-- A failure of a procedure on its own is passed. -/
theorem Moment.passes_of_run_failure? {p : Proc α} {w : World} {e : Failure}
    (h : (p.run w).failure? = some e) :
    Passes (⟨p, .top, w⟩ : Moment α) ⟨Proc.ofExcept (.error e), .top, (p.run w).2⟩ := by
  refine passes_of_run_eq ?_
  unfold Proc.Result.failure? at h
  split at h
  · rename_i f w₁ hrun
    cases h
    rw [hrun]
    rfl
  · cases h

namespace Call

/-- An evaluation that was run to was started. -/
theorem exists_starts {c : Call α} {n : Nat} {a : Addr}
    (h : (c.start.after n).evaluated? = some a)
    (hown : (c.start.after n).stack.isOwn = true) :
    ∃ k, c.Starts k ⟨.evaluate (.ref a), (c.start.after n).world⟩ := by
  have hm := Moment.becomes_after c.start n
  generalize c.start.after n = m at h hown hm
  unfold Moment.evaluated? at h
  split at h
  · cases h
    exact ⟨_, _, _, _, hown, rfl, hm⟩
  · cases h

/-- A call that was run to its failure ends with that. -/
theorem ends_of_failure? {c : Call α} {n : Nat} {e : Failure}
    (h : (c.start.after n).failure? = some e) : c.Ends (.error e) (c.start.after n).world :=
  Moment.becomes_of_failure? h

end Call

/-- A step of script code that has the host evaluate source with an error in a form
with a cleanup form. -/
def failingStep : Call Outcome :=
  ⟨.step (.mk (.runSource "(progn (unwind-protect (car 1) 5) 2)") none false) [],
    .initial .standard⟩

/-- The evaluation of the source. -/
def failingForm : Call Obj := ⟨.evaluate (.ref 165), (failingStep.start.after 12).world⟩

/-- The evaluation of the form with the cleanup form. -/
def protectedForm : Call Obj := ⟨.evaluate (.ref 162), (failingForm.start.after 3).world⟩

/-- The error comes out of the step as it was raised, after the cleanup form has been
evaluated. -/
theorem failures_pass_unchanged_step :
    ∃ k e w, failingStep.Leads k protectedForm ∧
      failingStep.Ends (.error e) (k.leave (Undo.leaveEvaluation.run w)) ∧
      e.message = "Host error (wrong-type-argument): listp 1" ∧
      ∃ cleanup w₁ s, cleanup.length = 1 ∧ Evaluates cleanup w₁ s w := by
  obtain ⟨-, hcalls, -, hprotected⟩ := failures_pass_unchanged
  have hfacts : (failingStep.start.after 12).evaluated? = some 165 ∧
      (failingStep.start.after 12).stack.isOwn = true ∧
      (failingForm.start.after 3).evaluated? = some 162 ∧
      (failingForm.start.after 3).stack.isOwn = true ∧
      failingForm.recovers = false ∧ (failingForm.start.after 3).world.host.depth < maxDepth ∧
      ((failingForm.start.after 3).world.host.heap.protection? (.ref 162)).map
        (fun p => p.2.length) = some 1 ∧
      (protectedForm.start.after 28).failure?.map Failure.message =
        some "Host error (wrong-type-argument): listp 1" := by
    rw [protectedForm, failingForm, failingStep, World.initial_eq]
    decide +kernel
  obtain ⟨hform, hown, hprotect, hown', hrecovers, hdepth, hcleanup, hmessage⟩ := hfacts
  obtain ⟨k₁, hstart₁⟩ := Call.exists_starts hform hown
  obtain ⟨k₂, hstart₂⟩ := Call.exists_starts hprotect hown'
  -- the frame of the step and those of the evaluation lie between the failure and the border
  have hleads : failingStep.Leads ((Stack.top.append k₂).append k₁) protectedForm :=
    .step rfl hstart₁ (.step hrecovers hstart₂ (.refl _))
  obtain ⟨e, he, hmessage⟩ := Option.map_eq_some_iff.mp hmessage
  obtain ⟨⟨body, cleanup⟩, hprotection, hlength⟩ := Option.map_eq_some_iff.mp hcleanup
  have hends := Call.ends_of_failure? he
  generalize (protectedForm.start.after 28).world = w' at hends
  have hends' := hends
  unfold protectedForm at hends'
  obtain ⟨r, w₁, s, w, -, hevaluates, -, rfl⟩ := (hprotected hprotection hdepth).mp hends'
  obtain ⟨-, -, hall, -⟩ := hcalls hleads hends
  exact ⟨_, e, w, hleads, hall, hmessage, cleanup, w₁, s, hlength, hevaluates⟩

end Crossing
