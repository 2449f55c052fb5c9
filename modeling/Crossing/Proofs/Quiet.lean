import Crossing.Proofs.Moments

/-!
# Quiet runs

Parts of runs in which no script code is run, no callback begins or ends and the current
buffer stays the same.

- `Moment.IsQuiet`: no script code is about to run;
- `PassesAs`: runs whose moments, but for the last, are of a kind;
- `Proc.Comes`: a procedure comes to a result or a failure, quietly, in as many
  steps as it takes;
- `Comes.passes`: so do the moments of every run that comes to the procedure;
- `Comes.run_eq`: and so does the run of the procedure, if it gives a result.
-/

namespace Crossing

/-- What script code would find: the callbacks in progress and the current buffer. -/
structure Scene where
  pending : List PendingCall
  current : Addr

def World.scene (w : World) : Scene := ⟨w.border.pending, w.host.current⟩

variable {α β γ : Type} {scene : Scene}

/-! ### Quiet moments -/

/-- Whether a task runs script code. -/
def Task.isScript : Task α → Bool
  | .play _ _ => true
  | .step _ _ => true
  | _ => false

/-- Whether a procedure is about to run script code. -/
def Proc.startsScript : Proc α → Bool
  | .task t _ => t.isScript
  | _ => false

namespace Moment

/-- No script code is about to run, and the callbacks in progress and the current buffer
are those of `scene`. -/
structure IsQuiet (scene : Scene) (m : Moment γ) : Prop where
  proc : m.proc.startsScript = false
  scene : m.world.scene = scene

/-- Runs without sweeps in between whose moments, but for the last, are as `ok` says. -/
abbrev PassesAs (ok : Moment γ → Prop) : Moment γ → Moment γ → Prop :=
  Relation.ReflTransGen fun m m' => ok m ∧ m.next = some m'

theorem PassesAs.mono {ok ok' : Moment γ → Prop} {m m' : Moment γ} (hm : PassesAs ok m m')
    (h : ∀ m, ok m → ok' m) : PassesAs ok' m m' :=
  Relation.ReflTransGen.mono (fun _ _ hgo => ⟨h _ hgo.1, hgo.2⟩) _ _ hm

/-- What is passed under a condition is passed. -/
theorem PassesAs.passes {ok : Moment γ → Prop} {m m' : Moment γ} (hm : PassesAs ok m m') :
    Passes m m' :=
  Relation.ReflTransGen.mono (fun _ _ hgo => hgo.2) _ _ hm

/-- What comes to its end, comes to it from every moment on the way. -/
theorem Passes.from_passed {m m₁ m₂ : Moment γ} (h₁ : Passes m m₁) (h₂ : Passes m m₂)
    (hend₂ : m₂.next = none) : Passes m₁ m₂ := by
  induction h₁ using Relation.ReflTransGen.head_induction_on with
  | refl => exact h₂
  | head hnext _ ih =>
    cases h₂ using Relation.ReflTransGen.head_induction_on with
    | refl =>
      rw [hend₂] at hnext
      cases hnext
    | head hnext' h₂ =>
      rw [hnext] at hnext'
      cases hnext'
      exact ih h₂

/-- A run goes one way. -/
theorem Passes.eq_of_next_eq_none {m m₁ m₂ : Moment γ} (h₁ : Passes m m₁) (h₂ : Passes m m₂)
    (hend₁ : m₁.next = none) (hend₂ : m₂.next = none) : m₁ = m₂ := by
  obtain rfl | ⟨m', hnext, -⟩ := (h₁.from_passed h₂ hend₂).cases_head
  · rfl
  · rw [hend₁] at hnext
    cases hnext

/-! ### Steps -/

variable {s : Scope} {part : Proc β} {next : β → Proc α} {k : Stack γ α} {w w₁ : World}

/-- The next moment after a change. -/
theorem next_act {c : Change β} :
    (⟨.act c next, k, w⟩ : Moment γ).next = some ⟨next (c.run w).1, k, (c.run w).2⟩ := by
  have htell : c.tell w.sweep.1 (c.run w).1 = (c.run w).1 := by cases c <;> rfl
  rw [Moment.next, nextTold, advance, htell]

/-- The next moment after a scope is entered. -/
theorem next_inside {u : Undo} (hs : s.enter w = .ok (u, w₁)) :
    (⟨.inside s part next, k, w⟩ : Moment γ).next =
      some ⟨part, .push (.scope u next) k, w₁⟩ := by
  simp only [Moment.next, nextTold, advance, hs]

/-- The next moment after a scope is refused. -/
theorem next_refused {f : Failure} (hs : s.enter w = .error f) :
    (⟨.inside s part next, k, w⟩ : Moment γ).next = some ⟨.stop (.failure f), k, w⟩ := by
  simp only [Moment.next, nextTold, advance, hs]

end Moment

/-! ### Procedures that come to an end -/

/-- A procedure comes to a result or a failure. No script code is run on the way, and the
callbacks in progress and the current buffer are always those of `scene`. -/
inductive Proc.Comes (scene : Scene) :
    {α : Type} → Proc α → World → Except Failure α → World → Prop where
  | done {α : Type} {a : α} {w : World} (hw : w.scene = scene) :
    Comes scene (.done a) w (.ok a) w
  | fail {α : Type} {f : Failure} {w : World} (hw : w.scene = scene) :
    Comes scene (.stop (.failure f) : Proc α) w (.error f) w
  | ask {α β : Type} {q : Query β} {next : β → Proc α} {w w' : World} {r : Except Failure α}
    (hw : w.scene = scene) (h : Comes scene (next (q.ask w)) w r w') :
    Comes scene (.ask q next) w r w'
  | act {α β : Type} {c : Change β} {next : β → Proc α} {w w' : World} {r : Except Failure α}
    (hw : w.scene = scene) (h : Comes scene (next (c.run w).1) (c.run w).2 r w') :
    Comes scene (.act c next) w r w'
  | task {α β : Type} {t : Task β} {next : β → Proc α} {w w₁ w' : World} {x : β}
    {r : Except Failure α} (hw : w.scene = scene) (ht : t.isScript = false)
    (hbody : Comes scene t.body w (.ok x) w₁) (h : Comes scene (next x) w₁ r w') :
    Comes scene (.task t next) w r w'
  | taskFails {α β : Type} {t : Task β} {next : β → Proc α} {w w₁ : World} {f : Failure}
    (hw : w.scene = scene) (ht : t.isScript = false)
    (hbody : Comes scene t.body w (.error f) w₁) : Comes scene (.task t next) w (.error f) w₁
  | inside {α β : Type} {s : Scope} {u : Undo} {part : Proc β} {next : β → Proc α}
    {w w₁ w₂ w' : World} {x : β} {r : Except Failure α} (hw : w.scene = scene)
    (hs : s.enter w = .ok (u, w₁)) (hpart : Comes scene part w₁ (.ok x) w₂)
    (h : Comes scene (next x) (u.run w₂) r w') : Comes scene (.inside s part next) w r w'
  | insideFails {α β : Type} {s : Scope} {u : Undo} {part : Proc β} {next : β → Proc α}
    {w w₁ w₂ : World} {f : Failure} (hw : w.scene = scene)
    (hs : s.enter w = .ok (u, w₁)) (hpart : Comes scene part w₁ (.error f) w₂)
    (hu : (u.run w₂).scene = scene) :
    Comes scene (.inside s part next) w (.error f) (u.run w₂)
  | refused {α β : Type} {s : Scope} {part : Proc β} {next : β → Proc α} {w : World}
    {f : Failure} (hw : w.scene = scene) (hs : s.enter w = .error f) :
    Comes scene (.inside s part next) w (.error f) w

namespace Proc

variable {p : Proc α} {w w₁ w₂ : World} {a : α} {e : Failure} {r : Except Failure α}

/-- The scene at the end is that at the start. -/
theorem Comes.scene_end (h : Comes scene p w r w₁) : w₁.scene = scene := by
  induction h <;> assumption

/-! ### Sequences -/

theorem Comes.bind {f : α → Proc β} {s : Except Failure β} (hp : Comes scene p w (.ok a) w₁)
    (hf : Comes scene (f a) w₁ s w₂) : Comes scene (p >>= f) w s w₂ := by
  generalize hr : (Except.ok a : Except Failure α) = r at hp
  induction hp with
  | done hw =>
    obtain rfl := Except.ok.inj hr
    exact hf
  | fail _ | taskFails _ _ _ | insideFails _ _ _ _ | refused _ _ => cases hr
  | ask hw _ ih => exact .ask hw (ih hf hr)
  | act hw _ ih => exact .act hw (ih hf hr)
  | task hw ht hbody _ _ ih => exact .task hw ht hbody (ih hf hr)
  | inside hw hs hpart _ _ ih => exact .inside hw hs hpart (ih hf hr)

theorem Comes.bind_error {f : α → Proc β} (hp : Comes scene p w (.error e) w₁) :
    Comes scene (p >>= f) w (.error e) w₁ := by
  generalize hr : (Except.error e : Except Failure α) = r at hp
  -- the induction is on how the end is come to
  induction hp with
  | done _ => cases hr
  | fail hw =>
    obtain rfl := Except.error.inj hr
    exact .fail hw
  | ask hw _ ih => exact .ask hw (ih hr)
  | act hw _ ih => exact .act hw (ih hr)
  | task hw ht hbody _ _ ih => exact .task hw ht hbody (ih hr)
  | taskFails hw ht hbody =>
    obtain rfl := Except.error.inj hr
    exact .taskFails hw ht hbody
  | inside hw hs hpart _ _ ih => exact .inside hw hs hpart (ih hr)
  | insideFails hw hs hpart hu =>
    obtain rfl := Except.error.inj hr
    exact .insideFails hw hs hpart hu
  | refused hw hs =>
    obtain rfl := Except.error.inj hr
    exact .refused hw hs

/-! ### Moments -/

/-- What a procedure comes to, a run comes to that goes on with it, whatever waits. -/
theorem Comes.passes_bind (hp : Comes scene p w r w₁) (f : α → Proc β) (k : Stack γ β) :
    Moment.PassesAs (Moment.IsQuiet scene) ⟨p >>= f, k, w⟩ ⟨ofExcept r >>= f, k, w₁⟩ := by
  -- the induction is on how the end is come to, with what goes on left open
  induction hp generalizing β γ with
  | done _ | fail _ => exact .refl
  | ask hw _ ih => exact .head ⟨⟨rfl, hw⟩, rfl⟩ (ih f k)
  | act hw _ ih => exact .head ⟨⟨rfl, hw⟩, Moment.next_act⟩ (ih f k)
  | @task _ _ t next _ w₁ _ _ _ hw ht hbody _ ihBody ih =>
    -- the body of the task runs on top of the frame for its result
    have hstart := ihBody .done (.push (.result t fun x => next x >>= f) k)
    rw [show t.body >>= Proc.done = t.body from bind_done t.body] at hstart
    exact .head ⟨⟨ht, hw⟩, rfl⟩ (hstart.trans (.head ⟨⟨rfl, hbody.scene_end⟩, rfl⟩ (ih f k)))
  | @taskFails _ _ t next _ w₁ _ hw ht hbody ihBody =>
    have hstart := ihBody .done (.push (.result t fun x => next x >>= f) k)
    rw [show t.body >>= Proc.done = t.body from bind_done t.body] at hstart
    exact .head ⟨⟨ht, hw⟩, rfl⟩ (hstart.trans (.head ⟨⟨rfl, hbody.scene_end⟩, rfl⟩ .refl))
  | @inside _ _ s u part next w w₁ w₂ _ x _ hw hs hpart _ ihPart ih =>
    have hstart := ihPart .done (.push (.scope u fun x => next x >>= f) k)
    rw [show part >>= Proc.done = part from bind_done part] at hstart
    exact .head ⟨⟨rfl, hw⟩, Moment.next_inside hs⟩
      (hstart.trans (.head ⟨⟨rfl, hpart.scene_end⟩, rfl⟩ (ih f k)))
  | @insideFails _ _ s u part next w w₁ w₂ _ hw hs hpart _ ihPart =>
    have hstart := ihPart .done (.push (.scope u fun x => next x >>= f) k)
    rw [show part >>= Proc.done = part from bind_done part] at hstart
    exact .head ⟨⟨rfl, hw⟩, Moment.next_inside hs⟩
      (hstart.trans (.head ⟨⟨rfl, hpart.scene_end⟩, rfl⟩ .refl))
  | @refused _ _ s part next w _ hw hs =>
    exact .head ⟨⟨rfl, hw⟩, Moment.next_refused hs⟩ .refl

/-- What a procedure comes to, a run comes to that is about to do it. -/
theorem Comes.passes (hp : Comes scene p w r w₁) (k : Stack γ α) :
    Moment.PassesAs (Moment.IsQuiet scene) ⟨p, k, w⟩ ⟨ofExcept r, k, w₁⟩ := by
  have h := hp.passes_bind .done k
  rw [show p >>= Proc.done = p from bind_done p,
    show ofExcept r >>= Proc.done = ofExcept r from bind_done _] at h
  exact h

/-- If the run of a procedure gives a result, it is what the procedure comes to. -/
theorem Comes.run_eq (hp : Comes scene p w r w₁) (hrun : p.run w = (.ok a, w₂)) :
    r = .ok a ∧ w₂ = w₁ := by
  obtain ⟨m, hm, hend⟩ := Moment.passes_of_run p .top w
  rw [hrun] at hend
  obtain rfl := hend
  have hnext : (⟨ofExcept r, .top, w₁⟩ : Moment α).next = none := by cases r <;> rfl
  have heq := (hp.passes .top).passes.eq_of_next_eq_none hm hnext rfl
  cases r with
  | ok b =>
    cases heq
    exact ⟨rfl, rfl⟩
  | error e => cases heq

end Proc

end Crossing
