import Crossing.Transcript
import Mathlib.Logic.Relation

/-!
# Moments of a run

A run passes through moments: the procedure that is left of the innermost part,
the parts around it that wait for it, and the world. `Moment.next` goes from one
moment to the following one, so that a property of every moment is a property of
the run at any depth.

- `Frame` is a part that waits, `Stack` all that wait;
- `Moment.next` is one step, given what a sweep tells about how much it released;
- `Moment.isSafepoint` holds where a sweep may come in between: before a task
  and after it;
- `Reaches` follows steps and sweeps in between, `Passes` steps only, `PassesTold`
  steps for which sweeps tell anything;
- `passes_of_run`: what a run gives, its moments come to.
-/

namespace Crossing

variable {α β γ : Type}

/-! ### Stacks -/

/-- A part that waits for the end of another one. -/
inductive Frame : Type → Type → Type 1 where
  /-- Goes on with the result of a task. -/
  | result {α β : Type} (t : Task α) (next : α → Proc β) : Frame α β
  /-- Ends a scope. -/
  | scope {α β : Type} (undo : Undo) (next : α → Proc β) : Frame α β
  | attempt {α β : Type} (next : Except Failure α → Proc β) : Frame α β
  | loop {β : Type} (part : Proc Bool) (next : Proc β) : Frame Bool β

namespace Frame

/-- What follows once the other part has given a result. -/
def resume : Frame α β → α → World → Proc β × World
  | .result _ next, a, w => (next a, w)
  | .scope undo next, a, w => (next a, undo.run w)
  | .attempt next, a, w => (next (.ok a), w)
  | .loop part next, true, w => (.loop part next, w)
  | .loop _ next, false, w => (next, w)

/-- What follows once the other part has failed. -/
def unwind : Frame α β → Failure → World → Proc β × World
  | .result _ _, f, w => (.stop (.failure f), w)
  | .scope undo _, f, w => (.stop (.failure f), undo.run w)
  | .attempt next, f, w => (next (.error f), w)
  | .loop _ _, f, w => (.stop (.failure f), w)

/-- Whether the other part is a task. -/
def isResult : Frame α β → Bool
  | .result _ _ => true
  | _ => false

end Frame

/-- The parts that wait, innermost first. The outermost one gives a `γ`. -/
inductive Stack (γ : Type) : Type → Type 1 where
  | top : Stack γ γ
  | push {α β : Type} (f : Frame α β) (rest : Stack γ β) : Stack γ α

namespace Stack

/-- Whether the innermost part that waits does so for a task. -/
def awaitsTask : Stack γ α → Bool
  | .top => false
  | .push f _ => f.isResult

end Stack

/-! ### Moments -/

/-- A moment of a run that gives a `γ` in the end. -/
structure Moment (γ : Type) where
  {α : Type}
  proc : Proc α
  stack : Stack γ α
  world : World

/-- What a change gives back, if a sweep tells that it released `told` objects. -/
def Change.tell (told : Nat) : Change α → α → α
  | .sweep, _ => told
  | _, a => a

namespace Moment

/-- The step from a procedure, if the run goes on. A trap ends a run where it is. -/
def advance (told : Nat) : Proc α → Stack γ α → World → Option (Moment γ)
  | .done _, .top, _ => none
  | .done a, .push f rest, w => some ⟨(f.resume a w).1, rest, (f.resume a w).2⟩
  | .stop (.failure e), .push f rest, w => some ⟨(f.unwind e w).1, rest, (f.unwind e w).2⟩
  | .stop _, _, _ => none
  | .ask q next, k, w => some ⟨next (q.ask w), k, w⟩
  | .act c next, k, w => some ⟨next (c.tell told (c.run w).1), k, (c.run w).2⟩
  | .task t next, k, w => some ⟨t.body, .push (.result t next) k, w⟩
  | .inside s part next, k, w =>
    match s.enter w with
    | .error f => some ⟨.stop (.failure f), k, w⟩
    | .ok (undo, w) => some ⟨part, .push (.scope undo next) k, w⟩
  | .attempt part next, k, w => some ⟨part, .push (.attempt next) k, w⟩
  | .loop part next, k, w => some ⟨part, .push (.loop part next) k, w⟩

/-- The following moment, if sweeps tell that they released `told` objects. -/
def nextTold (told : Nat) (m : Moment γ) : Option (Moment γ) :=
  advance told m.proc m.stack m.world

/-- The following moment. -/
def next (m : Moment γ) : Option (Moment γ) := m.nextTold m.world.sweep.1

/-- The same moment after a sweep. -/
def swept (m : Moment γ) : Moment γ := { m with world := m.world.sweep.2 }

end Moment

/-- Whether a procedure is about to start a task. -/
def Proc.startsTask : Proc α → Bool
  | .task _ _ => true
  | _ => false

/-- Whether a procedure has come to its end. -/
def Proc.hasEnded : Proc α → Bool
  | .done _ => true
  | .stop (.failure _) => true
  | _ => false

/-- The step of script code that a procedure is about to play. -/
def Proc.step? : Proc α → Option Step
  | .task (.step s _) _ => some s
  | _ => none

namespace Moment

/-- Whether a task is about to start or has just come to its end. -/
def isSafepoint (m : Moment γ) : Bool :=
  m.proc.startsTask || (m.proc.hasEnded && m.stack.awaitsTask)

/-- The step of script code that is about to be played. -/
def step? (m : Moment γ) : Option Step := m.proc.step?

/-- How a run has ended, if it has. -/
def ending? : Moment γ → Option (Except Stop γ)
  | ⟨.done a, .top, _⟩ => some (.ok a)
  | ⟨.stop (.failure f), .top, _⟩ => some (.error (.failure f))
  | ⟨.stop .trap, _, _⟩ => some (.error .trap)
  | ⟨.stop .exhausted, _, _⟩ => some (.error .exhausted)
  | _ => none

/-- A run goes on unless it has ended. -/
theorem nextTold_eq_none_iff (told : Nat) (m : Moment γ) :
    m.nextTold told = none ↔ m.ending?.isSome = true := by
  obtain ⟨p, k, w⟩ := m
  unfold nextTold
  cases p with
  | done a => cases k <;> simp [advance, ending?]
  | stop s => cases s <;> cases k <;> simp [advance, ending?]
  | inside s part next =>
    simp only [advance, ending?]
    split <;> simp
  | _ => simp [advance, ending?]

/-- What a step does to the world: nothing, one change, or the start or the end of
a scope. -/
theorem world_cases {told : Nat} {m m₁ : Moment γ} (h : m.nextTold told = some m₁) :
    m₁.world = m.world ∨
    (∃ (β : Type) (c : Change β) (next : β → Proc m.α), m.proc = .act c next ∧
      m₁.world = (c.run m.world).2) ∨
    (∃ s u, Scope.enter s m.world = .ok (u, m₁.world)) ∨
    ∃ u, m₁.world = Undo.run u m.world := by
  obtain ⟨p, k, w⟩ := m
  unfold nextTold at h
  -- a result goes to the frame on top, a stop unwinds it, and else the procedure goes on
  cases p with
  | done a =>
    cases k with
    | top => cases h
    | push f rest =>
      cases h
      cases f with
      | scope undo next => exact .inr (.inr (.inr ⟨undo, rfl⟩))
      | loop part next => cases a <;> exact .inl rfl
      | _ => exact .inl rfl
  | stop s =>
    cases k with
    | top => cases s <;> cases h
    | push f rest =>
      cases s with
      | failure e =>
        cases h
        cases f with
        | scope undo next => exact .inr (.inr (.inr ⟨undo, rfl⟩))
        | _ => exact .inl rfl
      | trap => cases h
      | exhausted => cases h
  | act c next =>
    cases h
    exact .inr (.inl ⟨_, c, next, rfl, rfl⟩)
  | inside s part next =>
    simp only [advance] at h
    split at h
    · cases h
      exact .inl rfl
    · rename_i u w₁ hs
      cases h
      exact .inr (.inr (.inl ⟨s, u, hs⟩))
  | ask _ _ | task _ _ | attempt _ _ | loop _ _ =>
    cases h
    exact .inl rfl

/-! ### Runs -/

/-- A step of a run, or a sweep in between. -/
inductive Goes : Moment γ → Moment γ → Prop where
  | next {m m' : Moment γ} (h : m.next = some m') : Goes m m'
  | sweep {m : Moment γ} (h : m.isSafepoint = true) : Goes m m.swept

/-- Runs with sweeps in between whose moments, but for the last, are as `ok` says. -/
abbrev Reaches (ok : Moment γ → Prop) : Moment γ → Moment γ → Prop :=
  Relation.ReflTransGen fun m m' => ok m ∧ Goes m m'

/-- Runs without sweeps in between. -/
abbrev Passes : Moment γ → Moment γ → Prop :=
  Relation.ReflTransGen fun m m' => m.next = some m'

/-- Runs without sweeps in between whose own sweeps may tell anything. -/
abbrev PassesTold : Moment γ → Moment γ → Prop :=
  Relation.ReflTransGen fun m m' => ∃ told, m.nextTold told = some m'

theorem reaches_mono {ok ok' : Moment γ → Prop} (h : ∀ m, ok m → ok' m) {m m' : Moment γ}
    (hr : Reaches ok m m') : Reaches ok' m m' :=
  Relation.ReflTransGen.mono (fun _ _ hgo => ⟨h _ hgo.1, hgo.2⟩) _ _ hr

/-- The moment that is some steps later, or the last one. -/
def after : Nat → Moment γ → Moment γ
  | 0, m => m
  | n + 1, m =>
    match m.next with
    | some m' => m'.after n
    | none => m

/-- What comes after some steps is passed through. -/
theorem passes_after (m : Moment γ) (n : Nat) : Passes m (m.after n) := by
  induction n generalizing m with
  | zero => exact .refl
  | succ n ih =>
    unfold after
    cases hm : m.next with
    | none => exact .refl
    | some m' => exact .head hm (ih m')

/-- A run reaches its moments. -/
theorem reaches_after {ok : Moment γ → Prop} {m : Moment γ} {n : Nat}
    (h : ∀ i < n, ok (m.after i)) : Reaches ok m (m.after n) := by
  induction n generalizing m with
  | zero => exact .refl
  | succ n ih =>
    cases hm : m.next with
    | none =>
      have hafter : m.after (n + 1) = m := by rw [after, hm]
      rw [hafter]
    | some m' =>
      have hafter : ∀ i, m.after (i + 1) = m'.after i := fun i => by rw [after, hm]
      rw [hafter]
      refine .head ⟨h 0 (Nat.succ_pos n), .next hm⟩ (ih fun i hi => ?_)
      rw [← hafter]
      exact h (i + 1) (Nat.succ_lt_succ hi)

/-! ### What a run gives, its moments come to -/

/-- Whether a moment is the end of a part with the given result. A part that a
trap ends may end anywhere inside; nothing is said of runs that are not finished. -/
def Ends (k : Stack γ α) : Proc.Result α → Moment γ → Prop
  | (.ok a, w), m => m = ⟨.done a, k, w⟩
  | (.error (.failure f), w), m => m = ⟨.stop (.failure f), k, w⟩
  | (.error .trap, w), m => ∃ (β : Type) (k' : Stack γ β), m = ⟨.stop .trap, k', w⟩
  | (.error .exhausted, _), _ => True

/-- What is passed after a step is passed. -/
theorem passes_next {p : Proc α} {k : Stack γ α} {w : World} {m m' : Moment γ}
    (h : advance w.sweep.1 p k w = some m) (hm : Passes m m') : Passes ⟨p, k, w⟩ m' :=
  .head h hm

/-- If a part comes to its end, so does the part that waits for it. -/
theorem exists_passes_push {f : Frame α β} {k : Stack γ β} {r : Proc.Result α}
    {s : Proc.Result β} {m : Moment γ}
    (hr : ∃ m', Passes m m' ∧ Ends (.push f k) r m')
    (hok : ∀ a w, r = (.ok a, w) →
      ∃ m', Passes ⟨(f.resume a w).1, k, (f.resume a w).2⟩ m' ∧ Ends k s m')
    (hfail : ∀ e w, r = (.error (.failure e), w) →
      ∃ m', Passes ⟨(f.unwind e w).1, k, (f.unwind e w).2⟩ m' ∧ Ends k s m')
    (hstop : ∀ e w, r = (.error e, w) → (∀ f, e ≠ .failure f) → s = (.error e, w)) :
    ∃ m', Passes m m' ∧ Ends k s m' := by
  obtain ⟨m₁, hm, hend⟩ := hr
  -- a result goes to the frame, and a failure unwinds it
  obtain ⟨r | a, w⟩ := r
  · cases r with
    | failure e =>
      obtain rfl := hend
      obtain ⟨m₂, hm₂, hend₂⟩ := hfail e w rfl
      exact ⟨m₂, hm.trans (passes_next rfl hm₂), hend₂⟩
    | trap =>
      obtain rfl := hstop .trap w rfl nofun
      exact ⟨m₁, hm, hend⟩
    | exhausted =>
      obtain rfl := hstop .exhausted w rfl nofun
      exact ⟨m₁, hm, trivial⟩
  · obtain rfl := hend
    obtain ⟨m₂, hm₂, hend₂⟩ := hok a w rfl
    exact ⟨m₂, hm.trans (passes_next rfl hm₂), hend₂⟩

/-- A loop comes to its end if its part does each time. -/
theorem exists_passes_iterate {part : Proc Bool} {body : World → Proc.Result Bool}
    {next : Proc α} {k : Stack γ α} {s : World → Proc.Result α}
    (hbody : ∀ w, ∃ m, Passes ⟨part, .push (.loop part next) k, w⟩ m ∧
      Ends (.push (.loop part next) k) (body w) m)
    (hnext : ∀ w, ∃ m, Passes ⟨next, k, w⟩ m ∧ Ends k (s w) m) (n : Nat) (w : World) :
    ∃ m, Passes ⟨.loop part next, k, w⟩ m ∧
      Ends k (match Proc.iterate body n w with
        | (.ok (), w) => s w
        | (.error e, w) => (.error e, w)) m := by
  induction n generalizing w with
  | zero => exact ⟨_, .refl, trivial⟩
  | succ n ih =>
    obtain ⟨m, hm, hend⟩ := hbody w
    refine exists_passes_push (r := body w) ⟨m, passes_next rfl hm, hend⟩ ?_ ?_ ?_
    · intro a w' hr
      simp only [Proc.iterate, hr]
      cases a with
      | true => exact ih w'
      | false => exact hnext w'
    · intro e w' hr
      simp only [Proc.iterate, hr]
      exact ⟨_, .refl, rfl⟩
    · intro e w' hr he
      simp only [Proc.iterate, hr]

/-- A part passes to its end, whatever waits for it, if all tasks do. -/
theorem exists_passes_runWith {rounds : Nat} {runner : Proc.Runner}
    (ht : ∀ {β : Type} (t : Task β) (k : Stack γ β) (w : World),
      ∃ m, Passes ⟨t.body, k, w⟩ m ∧ Ends k (runner t w) m)
    (p : Proc α) (k : Stack γ α) (w : World) :
    ∃ m, Passes ⟨p, k, w⟩ m ∧ Ends k (p.runWith rounds runner w) m := by
  -- the induction is on the procedure; tasks and scopes run on a stack of their own
  induction p generalizing w with
  | done a => exact ⟨_, .refl, rfl⟩
  | stop s =>
    cases s with
    | failure f => exact ⟨_, .refl, rfl⟩
    | trap => exact ⟨_, .refl, _, k, rfl⟩
    | exhausted => exact ⟨_, .refl, trivial⟩
  | ask q next ih =>
    obtain ⟨m, hm, hend⟩ := ih (q.ask w) k w
    exact ⟨m, passes_next rfl hm, hend⟩
  | act c next ih =>
    have htell : c.tell w.sweep.1 (c.run w).1 = (c.run w).1 := by cases c <;> rfl
    obtain ⟨m, hm, hend⟩ := ih (c.run w).1 k (c.run w).2
    exact ⟨m, passes_next (by rw [advance, htell]) hm, hend⟩
  | task t next ih =>
    obtain ⟨m, hm, hend⟩ := ht t (.push (.result t next) k) w
    refine exists_passes_push (r := runner t w) ⟨m, passes_next rfl hm, hend⟩ ?_ ?_ ?_
    · intro a w' hr
      simp only [Proc.runWith, hr]
      exact ih a k w'
    · intro e w' hr
      simp only [Proc.runWith, hr]
      exact ⟨_, .refl, rfl⟩
    · intro e w' hr he
      simp only [Proc.runWith, hr]
  | inside s part next ihPart ihNext =>
    cases hs : s.enter w with
    | error f =>
      have hstep : advance w.sweep.1 (.inside s part next) k w =
          some ⟨.stop (.failure f), k, w⟩ := by simp only [advance, hs]
      exact ⟨_, passes_next hstep .refl, by simp only [Proc.runWith, hs, Ends]⟩
    | ok entered =>
      obtain ⟨undo, w₁⟩ := entered
      have hstep : advance w.sweep.1 (.inside s part next) k w =
          some ⟨part, .push (.scope undo next) k, w₁⟩ := by simp only [advance, hs]
      obtain ⟨m, hm, hend⟩ := ihPart (.push (.scope undo next) k) w₁
      refine exists_passes_push (r := part.runWith rounds runner w₁)
        ⟨m, passes_next hstep hm, hend⟩ ?_ ?_ ?_
      · intro a w' hr
        simp only [Proc.runWith, hs, hr]
        exact ihNext a k (undo.run w')
      · intro e w' hr
        simp only [Proc.runWith, hs, hr]
        exact ⟨_, .refl, rfl⟩
      · intro e w' hr he
        cases e with
        | failure f => exact absurd rfl (he f)
        | trap => simp only [Proc.runWith, hs, hr]
        | exhausted => simp only [Proc.runWith, hs, hr]
  | attempt part next ihPart ihNext =>
    obtain ⟨m, hm, hend⟩ := ihPart (.push (.attempt next) k) w
    refine exists_passes_push (r := part.runWith rounds runner w)
      ⟨m, passes_next rfl hm, hend⟩ ?_ ?_ ?_
    · intro a w' hr
      simp only [Proc.runWith, hr]
      exact ihNext (.ok a) k w'
    · intro e w' hr
      simp only [Proc.runWith, hr]
      exact ihNext (.error e) k w'
    · intro e w' hr he
      cases e with
      | failure f => exact absurd rfl (he f)
      | trap => simp only [Proc.runWith, hr]
      | exhausted => simp only [Proc.runWith, hr]
  | loop part next ihPart ihNext =>
    exact exists_passes_iterate (fun w => ihPart _ w) (fun w => ihNext k w) rounds w

/-- A task passes to its end, whatever waits for it. -/
theorem exists_passes_task (n : Nat) (t : Task α) (k : Stack γ α) (w : World) :
    ∃ m, Passes ⟨t.body, k, w⟩ m ∧ Ends k (t.run n w) m := by
  induction n generalizing α w with
  | zero => exact ⟨_, .refl, trivial⟩
  | succ n ih => exact exists_passes_runWith (fun t k w => ih t k w) t.body k w

/-- What a run gives, its moments come to. -/
theorem passes_of_run (p : Proc α) (k : Stack γ α) (w : World) :
    ∃ m, Passes ⟨p, k, w⟩ m ∧ Ends k (p.run w) m :=
  exists_passes_runWith (fun t k w => exists_passes_task budget t k w) p k w

/-- A run that gives a result or fails comes to its end so. -/
theorem passes_of_run_eq {p : Proc α} {k : Stack γ α} {w w₁ : World} {r : Except Failure α}
    (h : p.run w = (r.mapError .failure, w₁)) : Passes ⟨p, k, w⟩ ⟨Proc.ofExcept r, k, w₁⟩ := by
  obtain ⟨m, hm, hend⟩ := passes_of_run p k w
  rw [h] at hend
  cases r <;>
  · obtain rfl := hend
    exact hm

end Moment

end Crossing
