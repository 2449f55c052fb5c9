import Crossing.Proofs.DynamicBindings
import Crossing.Proofs.Successes

/-!
# Procedures that wrap others

Much of what the two sides do is done for the sake of one part in the middle, which may run
script code. What comes before that part and what comes after it does not run any, and does
nothing to the cells of the host that are there.

- `Moment.IsSilent`: no script code is about to run;
- `World.Retains`, `World.Durable`: what lasts as long as cells and the current buffer stay as
  they are;
- `Proc.Wraps`: a procedure comes to do another one, and comes to its own end once that has
  ended, silently both times;
- `wraps_within`, `Wraps.trans`, `Wraps.bind` and so on: from parts to the whole;
- `Proc.Turns`: a procedure comes to what another one does;
- `Proc.Enters`, `Proc.EntersUnless`: where it is due, a procedure wraps one that is as it should
  be, or it fails before in one of some ways;
- `Proc.Starts`: a procedure starts a task before any other that runs script code.
-/

namespace Crossing

open Proc

variable {α β γ δ : Type} {w w₁ w₂ : World} {scene : Scene}

/-! ### Silent runs -/

namespace Moment

/-- No script code is about to run. -/
def IsSilent (m : Moment γ) : Prop := m.proc.startsScript = false

/-- What is quiet is silent. -/
theorem IsQuiet.isSilent {m : Moment γ} (h : m.IsQuiet scene) : m.IsSilent := h.proc

/-- What has ended is silent. -/
theorem isSilent_ofExcept {r : Except Failure α} {k : Stack γ α} :
    (⟨ofExcept r, k, w⟩ : Moment γ).IsSilent := by
  cases r <;> rfl

theorem PassesAs.becomes {ok : Moment γ → Prop} {m m' : Moment γ} (h : PassesAs ok m m') :
    Becomes m m' := Relation.ReflTransGen.mono (fun _ _ hgo => .next hgo.2) _ _ h

/-- What is silent may be done whatever script code may do. -/
theorem PassesAs.reaches {m m' : Moment γ} (h : PassesAs IsSilent m m') :
    Reaches (Licensed .careful) m m' :=
  Relation.ReflTransGen.mono
    (fun m _ hgo => ⟨IsQuiet.licensed ⟨hgo.1, (rfl : m.world.scene = _)⟩, .next hgo.2⟩) _ _ h

end Moment

namespace World

/-- Cells that are there stay as they are. -/
def KeepsCells (w w₁ : World) : Prop :=
  ∀ a c, w.host.heap.get? a = some c → w₁.host.heap.get? a = some c

/-- Cells that are there stay as they are, and so does which buffer is current. -/
structure Retains (w w₁ : World) : Prop where
  cells : w.KeepsCells w₁
  current : w₁.host.current = w.host.current

/-- What holds now and as long as cells and the current buffer stay as they are. -/
structure Durable (T : World → Prop) : Prop where
  keeps : ∀ {w w₁ : World}, w.Retains w₁ → T w → T w₁

theorem KeepsCells.trans (h₀₁ : w.KeepsCells w₁) (h₁₂ : w₁.KeepsCells w₂) : w.KeepsCells w₂ :=
  fun a c hc => h₁₂ a c (h₀₁ a c hc)

theorem Retains.refl (w : World) : w.Retains w := ⟨fun _ _ h => h, rfl⟩

theorem Retains.trans (h₀₁ : w.Retains w₁) (h₁₂ : w₁.Retains w₂) : w.Retains w₂ :=
  ⟨h₀₁.cells.trans h₁₂.cells, h₁₂.current.trans h₀₁.current⟩

end World

/-- Changes that only add retain cells and the current buffer, in whatever world they are
made. -/
theorem Change.retains_run {c : Change α} (hc : c.isAdditive = true) (w : World) :
    w.Retains (c.run w).2 := by
  have hsame : ∀ {w₁ : World}, w₁.host.heap = w.host.heap → w₁.host.current = w.host.current →
      w.Retains w₁ := fun h hcurrent => ⟨fun a d hd => by rwa [h], hcurrent⟩
  have hgrown : ∀ {w₁ : World}, w.GrowsTo w₁ → w.Retains w₁ :=
    fun hg => ⟨fun a d hd => hg.host.heap.cell hd, hg.current⟩
  -- a change that only adds keeps each cell, and selects no buffer
  cases c with
  | make f => exact ⟨fun a d hd => (w.host.heap.growsTo_make f).cell hd, rfl⟩
  | intern name =>
    exact ⟨fun a d hd => (w.host.growsTo_intern name).heap.cell hd, w.host.current_intern name⟩
  | retain o =>
    refine hsame ?_ (w.host.current_retain o)
    simp only [run, World.onHost, Interpreter.retain]
    split <;> rfl
  | adopt id =>
    have hhost : ((Change.adopt id).run w).2.host = w.host := w.host_adopt id
    exact hsame (by rw [hhost]) (by rw [hhost])
  | recallSymbol kind name => exact hgrown (w.growsTo_revive _)
  | recallNumber key => exact hgrown (w.growsTo_revive _)
  | register c =>
    refine hsame ?_ ?_ <;>
    · simp only [run]
      split <;> rfl
  | unwrap? key =>
    refine hsame ?_ ?_ <;>
    · simp only [run]
      split <;> rfl
  | recordName _ _ | cacheSymbol _ _ _ | cacheNumber _ _ | hold _ => exact hsame rfl rfl
  | _ => exact absurd hc Bool.false_ne_true

namespace Proc

/-- What comes of a procedure, given what has come of one that it has done. -/
abbrev Upshot (α β : Type) := Except Failure β → World → Except Failure α → World → Prop

variable {p : Proc α} {q : Proc β} {T : World → Prop}

/-- A procedure that only adds comes to its end silently, in whatever world it is done, and
retains cells and the current buffer. -/
theorem IsAdditive.passes (hp : p.IsAdditive) (w : World) :
    ∃ r w₁, w.Retains w₁ ∧ ∀ {γ δ : Type} (f : α → Proc δ) (k : Stack γ δ),
      Moment.PassesAs Moment.IsSilent ⟨p >>= f, k, w⟩ ⟨ofExcept r >>= f, k, w₁⟩ := by
  induction p generalizing w with
  | done a => exact ⟨.ok a, w, .refl w, fun f k => .refl⟩
  | stop s =>
    obtain ⟨e, rfl⟩ := hp
    exact ⟨.error e, w, .refl w, fun f k => .refl⟩
  | ask q next ih =>
    obtain ⟨r, w₁, hretains, h⟩ := ih (q.ask w) (hp _) w
    exact ⟨r, w₁, hretains, fun f k => .head ⟨rfl, rfl⟩ (h f k)⟩
  | act c next ih =>
    obtain ⟨r, w₁, hretains, h⟩ := ih (c.run w).1 (hp.2 _) (c.run w).2
    exact ⟨r, w₁, (c.retains_run hp.1 w).trans hretains,
      fun f k => .head ⟨rfl, Moment.next_act⟩ (h f k)⟩
  | task _ _ _ | inside _ _ _ _ _ | attempt _ _ _ _ | loop _ _ _ _ => exact hp.elim

/-! ### Wrapping -/

/-- Whatever is done with its end, a procedure comes to do another one, and comes to its end
once that has ended; `S` says to what end, given that of the other one. No script code is run
before the other procedure starts, and none after its end. -/
def Wraps (p : Proc α) (w : World) (q : Proc β) (w₁ : World) (S : Upshot α β) : Prop :=
  ∃ K : ∀ {γ δ : Type}, (α → Proc δ) → Stack γ δ → Stack γ β,
    (∀ {γ δ : Type} (f : α → Proc δ) (k : Stack γ δ),
      Moment.PassesAs Moment.IsSilent ⟨p >>= f, k, w⟩ ⟨q, K f k, w₁⟩) ∧
    ∀ r w₂, Moment.Becomes ⟨q, .top, w₁⟩ (⟨ofExcept r, .top, w₂⟩ : Moment β) →
      ∃ s w₃, S r w₂ s w₃ ∧ ∀ {γ δ : Type} (f : α → Proc δ) (k : Stack γ δ),
        Moment.PassesAs Moment.IsSilent ⟨ofExcept r, K f k, w₂⟩ ⟨ofExcept s >>= f, k, w₃⟩

variable {S S' : Upshot α β}

/-- What is known of the end may use that the other procedure has ended in a run of its own. -/
theorem Wraps.mono (hp : p.Wraps w q w₁ S) (h : ∀ r w₂ s w₃,
      Moment.Becomes ⟨q, .top, w₁⟩ (⟨ofExcept r, .top, w₂⟩ : Moment β) → S r w₂ s w₃ →
        S' r w₂ s w₃) : p.Wraps w q w₁ S' := by
  obtain ⟨K, hstart, hend⟩ := hp
  refine ⟨K, hstart, fun r w₂ hq => ?_⟩
  obtain ⟨s, w₃, hS, hback⟩ := hend r w₂ hq
  exact ⟨s, w₃, h r w₂ s w₃ hq hS, hback⟩

/-- A part in a scope. -/
theorem wraps_within {s : Scope} {u : Undo} (hs : s.enter w = .ok (u, w₁)) :
    (within s p).Wraps w p w₁ fun r w₂ r' w₃ => r' = r ∧ w₃ = u.run w₂ := by
  refine ⟨fun f k => .push (.scope u f) k, fun f k => .single ⟨rfl, Moment.next_inside hs⟩,
    fun r w₂ _ => ⟨r, u.run w₂, ⟨rfl, rfl⟩, fun f k => .single ⟨Moment.isSilent_ofExcept, ?_⟩⟩⟩
  cases r <;> rfl

/-- A task that runs no script code itself. -/
theorem wraps_perform {t : Task α} (ht : t.isScript = false) :
    (perform t).Wraps w t.body w fun r w₂ r' w₃ => r' = r ∧ w₃ = w₂ := by
  refine ⟨fun f k => .push (.result t f) k, fun f k => .single ⟨ht, rfl⟩,
    fun r w₂ _ => ⟨r, w₂, ⟨rfl, rfl⟩, fun f k => .single ⟨Moment.isSilent_ofExcept, ?_⟩⟩⟩
  cases r <;> rfl

/-- What a part wraps, a procedure wraps that wraps the part. -/
theorem Wraps.trans {part : Proc δ} {R : Upshot α δ} {R' : Upshot δ β}
    (hp : p.Wraps w part w₁ R) (hpart : part.Wraps w₁ q w₂ R') : p.Wraps w q w₂
      fun r w₃ s w₅ => ∃ s' w₄, R' r w₃ s' w₄ ∧ R s' w₄ s w₅ := by
  obtain ⟨K, hstart, hend⟩ := hp
  obtain ⟨K', hstart', hend'⟩ := hpart
  have hin : ∀ {γ : Type} (k : Stack γ δ),
      Moment.PassesAs Moment.IsSilent ⟨part, k, w₁⟩ ⟨q, K' .done k, w₂⟩ := fun k => by
    have h := hstart' .done k
    rwa [show part >>= Proc.done = part from bind_done part] at h
  refine ⟨fun f k => K' .done (K f k), fun f k => (hstart f k).trans (hin _), fun r w₃ h => ?_⟩
  obtain ⟨s', w₄, hR', hback'⟩ := hend' r w₃ h
  have hout : ∀ {γ : Type} (k : Stack γ δ),
      Moment.PassesAs Moment.IsSilent ⟨ofExcept r, K' .done k, w₃⟩ ⟨ofExcept s', k, w₄⟩ :=
    fun k => by
      have h := hback' .done k
      rwa [show ofExcept s' >>= Proc.done = ofExcept s' from bind_done _] at h
  -- the part ends in a run of its own
  have hrun : Moment.Becomes ⟨part, .top, w₁⟩ (⟨ofExcept s', .top, w₄⟩ : Moment δ) :=
    ((hin .top).becomes.trans (h.atop (K' .done .top))).trans (hout .top).becomes
  obtain ⟨s, w₅, hR, hback⟩ := hend s' w₄ hrun
  exact ⟨s, w₅, ⟨s', w₄, hR', hR⟩, fun f k => (hout _).trans (hback f k)⟩

/-- What a task wraps that runs no script code itself. -/
theorem Wraps.perform {t : Task α} (ht : t.isScript = false) (hbody : t.body.Wraps w q w₁ S) :
    (perform t).Wraps w q w₁ S := by
  refine ((wraps_perform ht).trans hbody).mono fun r w₂ s w₃ _ h => ?_
  obtain ⟨s', w₄, hS, rfl, rfl⟩ := h
  exact hS

/-- What a part in a scope wraps. -/
theorem Wraps.within {s : Scope} {u : Undo} (hs : s.enter w = .ok (u, w₁))
    (hpart : p.Wraps w₁ q w₂ S') (hS : ∀ r w₃ r' w₄, S' r w₃ r' w₄ → S r w₃ r' (u.run w₄)) :
    (within s p).Wraps w q w₂ S := by
  refine ((wraps_within hs).trans hpart).mono fun r w₃ r' w₅ _ h => ?_
  obtain ⟨s', w₄, hS', rfl, rfl⟩ := h
  exact hS _ _ _ _ hS'

/-- What only adds may follow. -/
theorem Wraps.bind {g : α → Proc γ} (hp : p.Wraps w q w₁ S) (hg : ∀ a, (g a).IsAdditive) :
    (p >>= g).Wraps w q w₁ fun r w₂ s w₄ => ∃ s' w₃, S r w₂ s' w₃ ∧ w₃.Retains w₄ ∧
      Moment.Becomes ⟨ofExcept s' >>= g, .top, w₃⟩ (⟨ofExcept s, .top, w₄⟩ : Moment γ) := by
  obtain ⟨K, hstart, hend⟩ := hp
  refine ⟨fun f k => K (fun a => g a >>= f) k, fun f k => ?_, fun r w₂ h => ?_⟩
  · rw [bind_assoc]
    exact hstart _ k
  · obtain ⟨s', w₃, hS, hback⟩ := hend r w₂ h
    obtain ⟨s, w₄, hretains, hrest⟩ := ((isAdditive_ofExcept s').bind hg).passes w₃
    refine ⟨s, w₄, ⟨s', w₃, hS, hretains, ?_⟩, fun f k => (hback _ k).trans ?_⟩
    · have h := (hrest .done .top).becomes
      rwa [show ofExcept s' >>= g >>= Proc.done = ofExcept s' >>= g from bind_done _,
        show ofExcept s >>= Proc.done = ofExcept s from bind_done _] at h
    · have h := hrest f k
      rwa [bind_assoc] at h

/-- What comes to a result quietly may come before. -/
theorem Comes.wraps_bind {f : α → Proc β} {a : α} {q : Proc γ} {S : Upshot β γ}
    (hp : Comes scene p w (.ok a) w₁) (hf : (f a).Wraps w₁ q w₂ S) :
    (p >>= f).Wraps w q w₂ S := by
  obtain ⟨K, hstart, hend⟩ := hf
  refine ⟨K, fun g k => ?_, hend⟩
  have h := (hp.passes_bind (fun a => f a >>= g) k).mono fun _ h => h.isSilent
  rw [← bind_assoc] at h
  exact h.trans (hstart g k)

theorem Wraps.isDue (hp : p.Wraps w q w₁ S) (hdue : p.IsDue w) : q.IsDue w₁ := by
  obtain ⟨K, hstart, -⟩ := hp
  obtain ⟨config, steps, _, f, k, hr⟩ := hdue
  exact .of_moment (hr.trans (hstart f k).reaches)

/-! ### Turning into another procedure -/

/-- Whatever is done next, a procedure silently comes to what another one does. -/
structure Turns (p : Proc α) (w : World) (p₁ : Proc α) (w₁ : World) : Prop where
  passes : ∀ {γ δ : Type} (f : α → Proc δ) (k : Stack γ δ),
    Moment.PassesAs Moment.IsSilent ⟨p >>= f, k, w⟩ ⟨p₁ >>= f, k, w₁⟩

variable {p₁ p₂ : Proc α}

theorem Turns.trans (h₁ : p.Turns w p₁ w₁) (h₂ : p₁.Turns w₁ p₂ w₂) : p.Turns w p₂ w₂ :=
  ⟨fun f k => (h₁.passes f k).trans (h₂.passes f k)⟩

theorem Turns.refl (p : Proc α) (w : World) : p.Turns w p w := ⟨fun _ _ => .refl⟩

theorem turns_query_bind (q : Query β) (g : β → Proc α) (w : World) :
    (query q >>= g).Turns w (g (q.ask w)) w := ⟨fun _ _ => .single ⟨rfl, rfl⟩⟩

theorem turns_change_bind (c : Change β) (g : β → Proc α) (w : World) :
    (change c >>= g).Turns w (g (c.run w).1) (c.run w).2 :=
  ⟨fun _ _ => .single ⟨rfl, Moment.next_act⟩⟩

theorem Turns.isDue (h : p.Turns w p₁ w₁) (hdue : p.IsDue w) : p₁.IsDue w₁ := by
  obtain ⟨config, steps, _, f, k, hr⟩ := hdue
  exact ⟨config, steps, _, f, k, hr.trans (h.passes f k).reaches⟩

/-- What a procedure turns into may be wrapped in its place. -/
theorem Turns.wraps (h : p.Turns w p₁ w₁) (hp : p₁.Wraps w₁ q w₂ S) : p.Wraps w q w₂ S := by
  obtain ⟨K, hstart, hend⟩ := hp
  exact ⟨K, fun f k => (h.passes f k).trans (hstart f k), hend⟩

/-! ### Entering -/

/-- Where it is due, a procedure fails quietly as `E` says, and the world is sustained; or it
wraps one as `Q` says, and its end is as `S` says. -/
def EntersUnless (E : Failure → Prop) (p : Proc α) (w : World) (Q : Proc β → World → Prop)
    (S : Upshot α β) : Prop :=
  p.IsDue w → (∃ e w₁, Comes w.scene p w (.error e) w₁ ∧ E e ∧ w.Sustains w₁) ∨
    ∃ q w₁, p.Wraps w q w₁ S ∧ Q q w₁

/-- So it does, and it does not fail before. -/
def Enters (p : Proc α) (w : World) (Q : Proc β → World → Prop) (S : Upshot α β) : Prop :=
  p.IsDue w → ∃ q w₁, p.Wraps w q w₁ S ∧ Q q w₁

variable {Q Q' : Proc β → World → Prop} {E : Failure → Prop}

theorem Enters.unless (hp : p.Enters w Q S) : p.EntersUnless E w Q S := fun hdue => .inr (hp hdue)

theorem Enters.mono (hp : p.Enters w Q S) (h : ∀ q w₁, Q q w₁ → Q' q w₁) : p.Enters w Q' S := by
  intro hdue
  obtain ⟨q, w₁, hwraps, hQ⟩ := hp hdue
  exact ⟨q, w₁, hwraps, h q w₁ hQ⟩

theorem Enters.mono_upshot (hp : p.Enters w Q S)
    (h : ∀ r w₂ s w₃, S r w₂ s w₃ → S' r w₂ s w₃) : p.Enters w Q S' := by
  intro hdue
  obtain ⟨q, w₁, hwraps, hQ⟩ := hp hdue
  exact ⟨q, w₁, hwraps.mono fun r w₂ s w₃ _ => h r w₂ s w₃, hQ⟩

/-- What is wrapped around is entered. -/
theorem Wraps.enters (hp : p.Wraps w q w₁ S) (hq : q.IsDue w₁ → Q q w₁) : p.Enters w Q S :=
  fun hdue => ⟨q, w₁, hp, hq (hp.isDue hdue)⟩

/-- What a procedure enters that is wrapped. -/
theorem Wraps.enters_trans {part : Proc δ} {R : Upshot α δ} {R' : Upshot δ β}
    (hp : p.Wraps w part w₁ R) (hpart : part.Enters w₁ Q R')
    (hS : ∀ r w₃ s' w₄ s w₅, R' r w₃ s' w₄ → R s' w₄ s w₅ → S r w₃ s w₅) : p.Enters w Q S := by
  intro hdue
  obtain ⟨q, w₂, hwraps, hQ⟩ := hpart (hp.isDue hdue)
  refine ⟨q, w₂, (hp.trans hwraps).mono fun r w₃ s w₅ _ h => ?_, hQ⟩
  obtain ⟨s', w₄, hR', hR⟩ := h
  exact hS r w₃ s' w₄ s w₅ hR' hR

theorem Enters.bind {g : α → Proc γ} (hp : p.Enters w Q S) (hg : ∀ a, (g a).IsAdditive) :
    (p >>= g).Enters w Q fun r w₂ s w₄ => ∃ s' w₃, S r w₂ s' w₃ ∧ w₃.Retains w₄ ∧
      Moment.Becomes ⟨ofExcept s' >>= g, .top, w₃⟩ (⟨ofExcept s, .top, w₄⟩ : Moment γ) := by
  intro hdue
  obtain ⟨q, w₁, hwraps, hQ⟩ := hp hdue.bind_left
  exact ⟨q, w₁, hwraps.bind hg, hQ⟩

/-- What lasts holds at the end of what follows. -/
theorem Enters.bind_durable {g : α → Proc γ} (hp : p.Enters w Q fun _ _ _ w₃ => T w₃)
    (hT : World.Durable T) (hg : ∀ a, (g a).IsAdditive) :
    (p >>= g).Enters w Q fun _ _ _ w₃ => T w₃ := by
  refine (hp.bind hg).mono_upshot fun r w₂ s w₄ h => ?_
  obtain ⟨s', w₃, hw₃, hretains, -⟩ := h
  exact hT.keeps hretains hw₃

/-- What succeeds may come before, or what fails as `E` says. -/
theorem SucceedsUnless.enters_bind {f : δ → Proc α} {p : Proc δ} {T : δ → World → Prop}
    (hp : p.SucceedsUnless E w T)
    (hf : ∀ a w₁, w.Sustains w₁ → T a w₁ → (f a).EntersUnless E w₁ Q S) :
    (p >>= f).EntersUnless E w Q S := by
  intro hdue
  obtain ⟨r, w₁, hcomes, hs, hok, herror⟩ := hp hdue.bind_left
  cases r with
  | error e => exact .inl ⟨e, w₁, hcomes.bind_error, herror e rfl, hs⟩
  | ok a =>
    obtain ⟨e, w₂, hrest, he, hs₂⟩ | ⟨q, w₂, hwraps, hQ⟩ :=
      hf a w₁ hs (hok a rfl) (hdue.bind_right hcomes)
    · rw [hcomes.scene_end] at hrest
      exact .inl ⟨e, w₂, hcomes.bind hrest, he, hs.trans hs₂⟩
    · exact .inr ⟨q, w₂, hcomes.wraps_bind hwraps, hQ⟩

/-- A success may come before what is entered. -/
theorem Succeeds.enters_bind {f : δ → Proc α} {p : Proc δ} {T : δ → World → Prop}
    (hp : p.Succeeds w T) (hf : ∀ a w₁, w.Sustains w₁ → T a w₁ → (f a).Enters w₁ Q S) :
    (p >>= f).Enters w Q S := by
  intro hdue
  obtain ⟨r, w₁, hcomes, a, rfl, hs, hT⟩ := hp hdue.bind_left
  obtain ⟨q, w₂, hwraps, hQ⟩ := hf a w₁ hs hT (hdue.bind_right hcomes)
  exact ⟨q, w₂, hcomes.wraps_bind hwraps, hQ⟩

/-- What a procedure turns into may be entered in its place. -/
theorem Turns.enters {p₁ : Proc α} (h : p.Turns w p₁ w₁) (hp : p₁.Enters w₁ Q S) :
    p.Enters w Q S := by
  intro hdue
  obtain ⟨q, w₂, hwraps, hQ⟩ := hp (h.isDue hdue)
  exact ⟨q, w₂, h.wraps hwraps, hQ⟩

theorem enters_perform {t : Task α} (ht : t.isScript = false) (hbody : t.body.Enters w Q S) :
    (perform t).Enters w Q S := by
  intro hdue
  obtain ⟨q, w₁, hwraps, hQ⟩ := hbody (hdue.task ht)
  exact ⟨q, w₁, hwraps.perform ht, hQ⟩

/-- A scope enters what its body enters, and its end undoes what the scope did. -/
theorem enters_within {s : Scope} {u : Undo} {R : Upshot α β} (hs : s.enter w = .ok (u, w₁))
    (hp : p.Enters w₁ Q R) (hS : ∀ r w₃ r' w₄,
      Moment.Becomes ⟨p, .top, w₁⟩ (⟨ofExcept r', .top, w₄⟩ : Moment α) → R r w₃ r' w₄ →
        S r w₃ r' (u.run w₄)) : (within s p).Enters w Q S := by
  have hwraps : (within s p).Wraps w p w₁ fun r w₃ r' w₄ =>
      Moment.Becomes ⟨p, .top, w₁⟩ (⟨ofExcept r, .top, w₃⟩ : Moment α) ∧ r' = r ∧ w₄ = u.run w₃ :=
    (wraps_within hs).mono fun _ _ _ _ hbecomes h => ⟨hbecomes, h⟩
  refine hwraps.enters_trans hp fun r w₃ s' w₄ s w₅ hS' h => ?_
  obtain ⟨hbecomes, rfl, rfl⟩ := h
  exact hS r w₃ _ w₄ hbecomes hS'

/-- What is held at the end of a part does not matter to what lasts. -/
theorem enters_keeping [Holds α] (hp : p.Enters w Q fun _ _ _ w₃ => T w₃)
    (hT : World.Durable T) : (keeping p).Enters w Q fun _ _ _ w₃ => T w₃ := by
  have hleave : ∀ w₂ : World, w₂.Retains ((Undo.holdOnly w.script.held).run w₂) :=
    fun _ => ⟨fun _ _ hc => hc, rfl⟩
  refine Enters.bind_durable (enters_within rfl hp fun _ _ _ w₂ _ h => hT.keeps (hleave w₂) h)
    hT fun a => ?_
  exact (isAdditive_change rfl).bind fun _ => isAdditive_pure a

/-- What is kept in the hands of running code may be forgotten at the end, if the statement
is not about it. -/
theorem entersUnless_keeping [Holds α] (hp : p.EntersUnless E w Q fun _ _ _ w₃ => T w₃)
    (hT : World.Durable T) : (keeping p).EntersUnless E w Q fun _ _ _ w₃ => T w₃ := by
  intro hdue
  obtain ⟨e, w₁, hcomes, he, hs⟩ | henters := hp (hdue.bind_left.within rfl)
  · -- a failure of the part is one of the whole
    have hfails : p.Ends w fun r w₁ => (∃ e, r = .error e ∧ E e) ∧ w.Sustains w₁ :=
      fun _ => ⟨.error e, w₁, hcomes, ⟨e, rfl, he⟩, hs⟩
    obtain ⟨r, w₂, hcomes, ⟨e, rfl, he⟩, hs⟩ :=
      ends_keeping (Q := fun r w₁ => (∃ e, r = .error e ∧ E e) ∧ w.Sustains w₁) (hfails.mono
        fun r w₁ hr => ⟨hr.1, hr.2.trans (.of_host (.of_host (.refl _) rfl rfl) rfl rfl)⟩) hdue
    exact .inl ⟨e, w₂, hcomes, he, hs⟩
  · exact .inr (enters_keeping (fun _ => henters) hT hdue)

/-! ### Leading to a part -/

/-- A procedure leads to a part: it ends as the part ends, in what `g` makes of that end. If the
part comes to its end quietly, so does the procedure. -/
structure Leads (p : Proc α) (w : World) (q : Proc α) (w₁ : World)
    (g : Except Failure α → World → World) : Prop where
  scene : w₁.scene = w.scene
  comes : ∀ {r w₂}, Comes w.scene q w₁ r w₂ → Comes w.scene p w r (g r w₂)
  passes : ∀ {γ δ : Type} (f : α → Proc δ) (k : Stack γ δ),
    ∃ (ε : Type) (f' : α → Proc ε) (k' : Stack γ ε),
      Moment.PassesAs Moment.IsSilent ⟨p >>= f, k, w⟩ ⟨q >>= f', k', w₁⟩ ∧
      ∀ r w₂, Moment.PassesAs Moment.IsSilent ⟨ofExcept r >>= f', k', w₂⟩
        ⟨ofExcept r >>= f, k, g r w₂⟩

section Leads

variable {q q₁ : Proc α} {g g' : Except Failure α → World → World}

theorem leads_refl (p : Proc α) (w : World) : p.Leads w p w fun _ w => w :=
  ⟨rfl, id, fun f k => ⟨_, f, k, .refl, fun _ _ => .refl⟩⟩

theorem Leads.trans (hp : p.Leads w q w₁ g) (hq : q.Leads w₁ q₁ w₂ g') :
    p.Leads w q₁ w₂ fun r w => g r (g' r w) := by
  refine ⟨hq.scene.trans hp.scene, fun h => hp.comes ?_, fun f k => ?_⟩
  · rw [← hp.scene] at h ⊢
    exact hq.comes h
  · obtain ⟨_, f₁, k₁, hstart₁, hend₁⟩ := hp.passes f k
    obtain ⟨_, f₂, k₂, hstart₂, hend₂⟩ := hq.passes f₁ k₁
    exact ⟨_, f₂, k₂, hstart₁.trans hstart₂, fun r w => (hend₂ r w).trans (hend₁ r _)⟩

/-- What comes to a result quietly may come before. -/
theorem Comes.leads_bind {part : Proc δ} {a : δ} {f : δ → Proc α}
    (hpart : Comes w.scene part w (.ok a) w₁) (hf : (f a).Leads w₁ q w₂ g) :
    (part >>= f).Leads w q w₂ g := by
  have hscene := hpart.scene_end
  refine ⟨hf.scene.trans hscene, fun h => ?_, fun f' k => ?_⟩
  · rw [← hscene] at h
    have hrest := hf.comes h
    rw [hscene] at hrest
    exact hpart.bind hrest
  · obtain ⟨_, f₁, k₁, hstart, hend⟩ := hf.passes f' k
    have hcome := (hpart.passes_bind (fun a => f a >>= f') k).mono fun _ h => h.isSilent
    rw [← bind_assoc] at hcome
    exact ⟨_, f₁, k₁, hcome.trans hstart, hend⟩

theorem leads_query_bind (q : Query δ) (f : δ → Proc α) (w : World) :
    (query q >>= f).Leads w (f (q.ask w)) w fun _ w => w :=
  have hquery : Comes w.scene (query q) w (.ok (q.ask w)) w := .ask rfl (.done rfl)
  hquery.leads_bind (leads_refl _ w)

theorem Leads.perform {t : Task α} (ht : t.isScript = false) (h : t.body.Leads w q w₁ g) :
    (perform t).Leads w q w₁ g := by
  refine ⟨h.scene, fun {r w₂} hq => ?_, fun f k => ?_⟩
  · have hbody := h.comes hq
    cases r with
    | ok a => exact .task rfl ht hbody (.done hbody.scene_end)
    | error e => exact .taskFails rfl ht hbody
  · obtain ⟨_, f₁, k₁, hstart, hend⟩ := h.passes .done (.push (.result t f) k)
    rw [show t.body >>= Proc.done = t.body from bind_done _] at hstart
    refine ⟨_, f₁, k₁, .head ⟨ht, rfl⟩ hstart, fun r w₂ => (hend r w₂).trans (.single ⟨?_, ?_⟩)⟩
    · rw [show ofExcept r >>= Proc.done = ofExcept r from bind_done _]
      exact Moment.isSilent_ofExcept
    · cases r <;> rfl

/-- A part in a scope that keeps to the scene. -/
theorem Leads.within {s : Scope} {u : Undo} (hs : s.enter w = .ok (u, w₁))
    (hscene : w₁.scene = w.scene) (hleave : ∀ w : World, (u.run w).scene = w.scene)
    (h : p.Leads w₁ q w₂ g) : (within s p).Leads w q w₂ fun r w => u.run (g r w) := by
  refine ⟨h.scene.trans hscene, fun {r w₃} hq => ?_, fun f k => ?_⟩
  · rw [← hscene] at hq
    have hpart := h.comes hq
    rw [hscene] at hpart
    have hend : (u.run (g r w₃)).scene = w.scene := (hleave _).trans hpart.scene_end
    cases r with
    | ok a => exact .inside rfl hs hpart (.done hend)
    | error e => exact .insideFails rfl hs hpart hend
  · obtain ⟨_, f₁, k₁, hstart, hend⟩ := h.passes .done (.push (.scope u f) k)
    rw [show p >>= Proc.done = p from bind_done p] at hstart
    refine ⟨_, f₁, k₁, .head ⟨rfl, Moment.next_inside hs⟩ hstart, fun r w₃ =>
      (hend r w₃).trans (.single ⟨?_, ?_⟩)⟩
    · rw [show ofExcept r >>= Proc.done = ofExcept r from bind_done _]
      exact Moment.isSilent_ofExcept
    · cases r <;> rfl

/-- A part at whose end only what it gives is held, besides what was held before. -/
theorem Leads.keeping [Holds α] (h : p.Leads w q w₁ g) : (keeping p).Leads w q w₁ fun r w₂ =>
    (Undo.holdOnly (r.toOption.elim [] Holds.handles ++ w.script.held)).run (g r w₂) := by
  have hheld := h.within (s := .holding) rfl rfl fun _ => rfl
  refine ⟨h.scene, fun {r w₂} hq => ?_, fun f k => ?_⟩
  · have hpart := hheld.comes hq
    cases r with
    | ok a => exact hpart.bind (.act hpart.scene_end (.done hpart.scene_end))
    | error e => exact hpart.bind_error
  · obtain ⟨_, f₁, k₁, hstart, hend⟩ := hheld.passes
      (fun a => (change (.hold (Holds.handles a)) >>= fun _ => pure a) >>= f) k
    refine ⟨_, f₁, k₁, ?_, fun r w₂ => (hend r w₂).trans ?_⟩
    · rw [Proc.keeping, bind_assoc]
      exact hstart
    · cases r with
      | ok a => exact .single ⟨rfl, Moment.next_act⟩
      | error e => exact .refl

theorem Leads.isDue (hp : p.Leads w q w₁ g) (hdue : p.IsDue w) : q.IsDue w₁ := by
  obtain ⟨config, steps, _, f, k, hr⟩ := hdue
  obtain ⟨_, f', k', hstart, -⟩ := hp.passes f k
  exact ⟨config, steps, _, f', k', hr.trans hstart.reaches⟩

theorem Leads.isReached (hp : p.Leads w q w₁ g) (hr : p.IsReached w) : q.IsReached w₁ := by
  obtain ⟨config, steps, _, f, k, hreaches⟩ := hr
  obtain ⟨_, f', k', hstart, -⟩ := hp.passes f k
  exact ⟨config, steps, _, f', k', hreaches.trans (Moment.reaches_of_passes hstart.passes)⟩

/-- What the part silently comes to, the procedure does. -/
theorem Leads.turns {r : Except Failure α} (hp : p.Leads w q w₁ g)
    (hq : q.Turns w₁ (ofExcept r) w₂) : p.Turns w (ofExcept r) (g r w₂) := by
  refine ⟨fun f k => ?_⟩
  obtain ⟨_, f', k', hstart, hend⟩ := hp.passes f k
  exact hstart.trans ((hq.passes f' k').trans (hend r w₂))

/-- What the part wraps, the procedure wraps. -/
theorem Leads.wraps {q₂ : Proc β} (hp : p.Leads w q w₁ g) (hq : q.Wraps w₁ q₂ w₂ S) :
    p.Wraps w q₂ w₂ fun r w₃ s w₅ => ∃ w₄, S r w₃ s w₄ ∧ w₅ = g s w₄ := by
  obtain ⟨K, hstart, hend⟩ := hq
  choose E f' k' hlead hback using fun {γ δ} => @Leads.passes _ _ _ _ _ _ hp γ δ
  refine ⟨fun f k => K (f' f k) (k' f k), fun f k => (hlead f k).trans (hstart _ _),
    fun r w₃ h => ?_⟩
  obtain ⟨s, w₄, hS, hrest⟩ := hend r w₃ h
  exact ⟨s, g s w₄, ⟨w₄, hS, rfl⟩, fun f k => (hrest _ _).trans (hback f k s w₄)⟩

/-- What a procedure leads to may be entered in its place, with the end undone by what the
way put in front. -/
theorem Leads.enters {Q : Proc β → World → Prop} {R : Upshot α β} (hp : p.Leads w q w₁ g)
    (hq : q.Enters w₁ Q R) (hS : ∀ r w₂ s w₃, R r w₂ s w₃ → S r w₂ s (g s w₃)) :
    p.Enters w Q S := by
  intro hdue
  obtain ⟨q₂, w₂, hwraps, hQ⟩ := hq (hp.isDue hdue)
  refine ⟨q₂, w₂, (hp.wraps hwraps).mono fun r w₃ s w₅ _ h => ?_, hQ⟩
  obtain ⟨w₄, hR, rfl⟩ := h
  exact hS r w₃ s w₄ hR

end Leads

/-! ### Starting -/

/-- Whatever is done with its end, a procedure comes to start a task, and no script code is
run before. -/
structure Starts (p : Proc α) (w : World) (t : Task β) (w₁ : World) : Prop where
  passes : ∀ {γ δ : Type} (f : α → Proc δ) (k : Stack γ δ),
    ∃ (ε : Type) (next : β → Proc ε) (k' : Stack γ ε),
      Moment.PassesAs Moment.IsSilent ⟨p >>= f, k, w⟩ ⟨.task t next, k', w₁⟩

variable {t : Task β}

theorem starts_perform (t : Task β) (w : World) : (perform t).Starts w t w :=
  ⟨fun f k => ⟨_, f, k, .refl⟩⟩

theorem Starts.bind (hp : p.Starts w t w₁) (f : α → Proc γ) : (p >>= f).Starts w t w₁ := by
  refine ⟨fun g k => ?_⟩
  rw [bind_assoc]
  exact hp.passes _ k

theorem Comes.starts_bind {f : α → Proc γ} {a : α} (hp : Comes scene p w (.ok a) w₁)
    (hf : (f a).Starts w₁ t w₂) : (p >>= f).Starts w t w₂ := by
  refine ⟨fun g k => ?_⟩
  obtain ⟨ε, next, k', hrest⟩ := hf.passes g k
  have h := (hp.passes_bind (fun a => f a >>= g) k).mono fun _ h => h.isSilent
  rw [← bind_assoc] at h
  exact ⟨ε, next, k', h.trans hrest⟩

theorem Starts.within {s : Scope} {u : Undo} (hs : s.enter w = .ok (u, w₁))
    (hp : p.Starts w₁ t w₂) : (within s p).Starts w t w₂ := by
  refine ⟨fun f k => ?_⟩
  obtain ⟨ε, next, k', h⟩ := hp.passes .done (.push (.scope u f) k)
  rw [show p >>= Proc.done = p from bind_done p] at h
  exact ⟨ε, next, k', .head ⟨rfl, Moment.next_inside hs⟩ h⟩

end Proc

end Crossing
