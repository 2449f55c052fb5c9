import Crossing.Proofs.Growth
import Crossing.Proofs.LiveHandles
import Crossing.Proofs.Quiet

/-!
# What procedures come to

What holds of the result of a procedure that a session comes to. A procedure may
fail; what is shown is that it comes to an end without running script code, and what
its result is if it has one.

- `Proc.IsReached`: a session is about to do a procedure, so that the tables of both
  sides are sound and what the border remembers is right;
- `Proc.Yields`: it comes to an end, and its result is as it should be;
- `Proc.Adds`: and the world has only grown on the way;
- `Yields.bind`, `Adds.bind`, `yields_within` and so on: from parts to the whole;
- `Proc.IsAdditive`: a procedure without parts that only adds.
-/

namespace Crossing

variable {α β γ : Type} {w w₁ w₂ : World}

/-! ### Procedures of sessions -/

/-- What holds now and wherever the world grows to. -/
structure World.Lasting (Q : World → Prop) : Prop where
  grows : ∀ {w w₁ : World}, w.GrowsTo w₁ → Q w → Q w₁

theorem World.lasting_growsTo (w : World) : World.Lasting w.GrowsTo := ⟨fun hg h => h.trans hg⟩

/-- What outlives growth does so together. -/
theorem World.Lasting.and {Q R : World → Prop} (hQ : World.Lasting Q) (hR : World.Lasting R) :
    World.Lasting fun w => Q w ∧ R w := ⟨fun hg h => ⟨hQ.grows hg h.1, hR.grows hg h.2⟩⟩

theorem World.lasting_const (P : Prop) : World.Lasting fun _ => P := ⟨fun _ h => h⟩

/-- What a run passes through it reaches, under no condition. -/
theorem Moment.reaches_of_passes {m m₁ : Moment γ} (h : Passes m m₁) :
    Reaches (fun _ => True) m m₁ :=
  Relation.ReflTransGen.mono (fun _ _ hnext => ⟨trivial, .next hnext⟩) _ _ h

/-- The current buffer and the open calls are not part of what grows. -/
theorem World.GrowsTo.scene (hg : w.GrowsTo w₁) : w₁.scene = w.scene := by
  rw [World.scene, World.scene, hg.pending, hg.current]

namespace Proc

variable {scene : Scene} {p : Proc α} {f : α → Proc β} {a : α}

/-- A session is about to do a procedure. -/
def IsReached (p : Proc α) (w : World) : Prop :=
  ∃ (config : Config) (steps : List Step) (β : Type) (f : α → Proc β)
    (k : Stack (List (Except Failure Answer × List Answer)) β),
    Moment.Reaches (fun _ => True) (Transcript.start config steps) ⟨p >>= f, k, w⟩

namespace IsReached

theorem of_moment {config : Config} {steps : List Step}
    {k : Stack (List (Except Failure Answer × List Answer)) α}
    (h : Moment.Reaches (fun _ => True) (Transcript.start config steps) ⟨p, k, w⟩) :
    p.IsReached w := by
  refine ⟨config, steps, α, .done, k, ?_⟩
  rwa [show p >>= Proc.done = p from bind_done p]

theorem bind_left (h : (p >>= f).IsReached w) : p.IsReached w := by
  obtain ⟨config, steps, _, g, k, hr⟩ := h
  rw [bind_assoc] at hr
  exact ⟨config, steps, _, _, k, hr⟩

/-- Once a part has come to a result, the rest is about to be done. -/
theorem bind_right (h : (p >>= f).IsReached w) (hp : Comes scene p w (.ok a) w₁) :
    (f a).IsReached w₁ := by
  obtain ⟨config, steps, _, g, k, hr⟩ := h
  rw [bind_assoc] at hr
  have hrest := (hp.passes_bind (fun a => f a >>= g) k).passes
  exact ⟨config, steps, _, g, k, hr.trans (Moment.reaches_of_passes hrest)⟩

theorem task {t : Task α} (h : (perform t).IsReached w) : t.body.IsReached w := by
  obtain ⟨config, steps, _, g, k, hr⟩ := h
  exact of_moment (hr.tail ⟨trivial, .next rfl⟩)

theorem outcome (h : (outcome p).IsReached w) : p.IsReached w := by
  obtain ⟨config, steps, _, g, k, hr⟩ := h
  exact of_moment (hr.tail ⟨trivial, .next rfl⟩)

theorem within {s : Scope} {u : Undo} (h : (within s p).IsReached w)
    (hs : s.enter w = .ok (u, w₁)) : p.IsReached w₁ := by
  obtain ⟨config, steps, _, g, k, hr⟩ := h
  exact of_moment (hr.tail ⟨trivial, .next (Moment.next_inside hs)⟩)

/-! ### What sessions keep to -/

/-- What is reached belongs to a run that is like itself. All that is known of single runs
comes from there. -/
theorem alike (h : p.IsReached w) : ∃ (γ : Type) (Z : γ → γ → Prop) (m : Moment γ),
    m.world = w ∧ Moment.Alike .free Z m m := by
  obtain ⟨config, steps, _, g, k, hr⟩ := h
  exact ⟨_, _, _, rfl, Transcript.alike_of_reaches hr⟩

theorem sound (h : p.IsReached w) : w.Sound := by
  obtain ⟨_, _, m, rfl, hm⟩ := h.alike
  exact hm.sound

/-- Names are interned to symbols of these names, a remembered name is the name of what
its handle is for, and a remembered number is the one that its handle is for. -/
theorem grounded (h : p.IsReached w) : w.host.Interned ∧
    (∀ e ∈ w.border.symbolCache,
      w.host.Promises e.2.id fun o => w.host.heap.Names o e.1.2) ∧
    ∀ e ∈ w.border.numberCache, w.host.Promises e.2.id e.1.Crosses := by
  obtain ⟨_, _, m, rfl, -, -, -, hf⟩ := h.alike
  exact ⟨hf.grounded.interned, hf.grounded.symbols, hf.grounded.numbers⟩

/-- The callbacks at what is reached are a sound registry. -/
theorem callbacks (h : p.IsReached w) : w.border.callbacks.Sound := by
  obtain ⟨config, steps, _, g, k, hr⟩ := h
  exact (Moment.Reaches.callbacks hr Registry.sound_empty).1

end IsReached

/-! ### Results -/

/-- Where a session is about to do it, a procedure comes to an end, and a result is as
`Q` says. -/
def Yields (p : Proc α) (w : World) (Q : α → World → Prop) : Prop :=
  p.IsReached w → ∃ r w₁, Comes w.scene p w r w₁ ∧ ∀ a, r = .ok a → Q a w₁

/-- What is more, the world has only grown. -/
def Adds (p : Proc α) (w : World) (Q : α → World → Prop) : Prop :=
  p.Yields w fun a w₁ => w.GrowsTo w₁ ∧ Q a w₁

variable {Q Q' : α → World → Prop} {R : β → World → Prop}

theorem Yields.mono (hp : p.Yields w Q) (h : ∀ a w₁, Q a w₁ → Q' a w₁) : p.Yields w Q' := by
  intro hr
  obtain ⟨r, w₁, hcomes, hok⟩ := hp hr
  exact ⟨r, w₁, hcomes, fun a ha => h a w₁ (hok a ha)⟩

theorem Adds.mono (hp : p.Adds w Q) (h : ∀ a w₁, w.GrowsTo w₁ → Q a w₁ → Q' a w₁) :
    p.Adds w Q' :=
  Yields.mono hp fun a w₁ ha => ⟨ha.1, h a w₁ ha.1 ha.2⟩

theorem Yields.bind (hp : p.Yields w Q) (hf : ∀ a w₁, Q a w₁ → (f a).Yields w₁ R) :
    (p >>= f).Yields w R := by
  intro hr
  obtain ⟨r, w₁, hcomes, hok⟩ := hp hr.bind_left
  cases r with
  | error e => exact ⟨.error e, w₁, hcomes.bind_error, nofun⟩
  | ok a =>
    obtain ⟨s, w₂, hrest, hR⟩ := hf a w₁ (hok a rfl) (hr.bind_right hcomes)
    rw [hcomes.scene_end] at hrest
    exact ⟨s, w₂, hcomes.bind hrest, hR⟩

theorem Adds.yields_bind (hp : p.Adds w Q)
    (hf : ∀ a w₁, w.GrowsTo w₁ → Q a w₁ → (f a).Yields w₁ R) : (p >>= f).Yields w R :=
  Yields.bind hp fun a w₁ ha => hf a w₁ ha.1 ha.2

theorem Adds.bind (hp : p.Adds w Q) (hf : ∀ a w₁, w.GrowsTo w₁ → Q a w₁ → (f a).Adds w₁ R) :
    (p >>= f).Adds w R :=
  hp.yields_bind fun a w₁ hg ha => Yields.mono (hf a w₁ hg ha) fun _ _ hb => ⟨hg.trans hb.1, hb.2⟩

/-- What lasts, holds after a part that only adds. -/
theorem Yields.bind_adds (hQ : ∀ a, World.Lasting (Q a)) (hp : p.Yields w Q)
    (hf : ∀ a w₁, Q a w₁ → (f a).Adds w₁ fun b w₂ => Q a w₂ → R b w₂) :
    (p >>= f).Yields w R :=
  hp.bind fun a w₁ ha => Yields.mono (hf a w₁ ha) fun _ _ hb => hb.2 ((hQ a).grows hb.1 ha)

/-! ### Single actions -/

theorem yields_pure (ha : Q a w) : (pure a : Proc α).Yields w Q := by
  intro _
  exact ⟨.ok a, w, .done rfl, fun b hb => Except.ok.inj hb ▸ ha⟩

theorem adds_pure (ha : Q a w) : (pure a : Proc α).Adds w Q := yields_pure ⟨.refl w, ha⟩

theorem yields_fail (e : Failure) : (fail e : Proc α).Yields w Q :=
  fun _ => ⟨.error e, w, .fail rfl, nofun⟩

theorem adds_fail (e : Failure) : (fail e : Proc α).Adds w Q := yields_fail e

theorem adds_query (q : Query α) : (query q).Adds w fun a w₁ => a = q.ask w ∧ w₁ = w :=
  fun _ => ⟨.ok _, w, .ask rfl (.done rfl), fun _ h =>
    ⟨.refl w, (Except.ok.inj h).symm, rfl⟩⟩

theorem adds_change {c : Change α} (hc : c.isAdditive = true) :
    (change c).Adds w fun a w₁ => a = (c.run w).1 ∧ w₁ = (c.run w).2 := by
  intro hr
  have hg := Change.growsTo_run hc hr.sound hr.callbacks
  exact ⟨.ok _, _, .act rfl (.done hg.scene), fun _ h => ⟨hg, (Except.ok.inj h).symm, rfl⟩⟩

/-! ### Parts -/

theorem yields_perform {t : Task α} (ht : t.isScript = false) (hbody : t.body.Yields w Q) :
    (perform t).Yields w Q := by
  intro hr
  obtain ⟨r, w₁, hcomes, hok⟩ := hbody hr.task
  cases r with
  | error e => exact ⟨.error e, w₁, .taskFails rfl ht hcomes, nofun⟩
  | ok a => exact ⟨.ok a, w₁, .task rfl ht hcomes (.done hcomes.scene_end), hok⟩

/-- What lasts of the result of a part holds where the part's scope has ended. -/
theorem yields_within {s : Scope} (hs : s.isAdditive = true) (hQ : ∀ a, World.Lasting (Q a))
    (hp : ∀ u w₁, s.enter w = .ok (u, w₁) → p.Yields w₁ Q) : (within s p).Yields w Q := by
  intro hr
  cases henter : s.enter w with
  | error e => exact ⟨.error e, w, .refused rfl henter, nofun⟩
  | ok entered =>
    obtain ⟨u, w₁⟩ := entered
    obtain ⟨hg, hleave⟩ := Scope.growsTo_enter hs henter
    obtain ⟨r, w₂, hcomes, hok⟩ := hp u w₁ henter (hr.within henter)
    have hscene : (u.run w₂).scene = w.scene := by
      rw [(hleave w₂).scene, hcomes.scene_end, hg.scene]
    rw [hg.scene] at hcomes
    cases r with
    | error e => exact ⟨.error e, _, .insideFails rfl henter hcomes hscene, nofun⟩
    | ok a =>
      refine ⟨.ok a, _, .inside rfl henter hcomes (.done hscene), fun b hb => ?_⟩
      exact (hQ b).grows (hleave w₂) (hok b hb)

/-- A scope that only adds is an addition if its body is one. -/
theorem adds_within {s : Scope} (hs : s.isAdditive = true) (hQ : ∀ a, World.Lasting (Q a))
    (hp : ∀ u w₁, s.enter w = .ok (u, w₁) → p.Adds w₁ Q) : (within s p).Adds w Q :=
  yields_within hs (fun a => (World.lasting_growsTo w).and (hQ a)) fun u w₁ henter =>
    Yields.mono (hp u w₁ henter) fun _ _ ha =>
      ⟨(Scope.growsTo_enter hs henter).1.trans ha.1, ha.2⟩

/-- The release of what was held takes nothing away that the statement is about. -/
theorem yields_holding (hQ : ∀ a, World.Lasting (Q a)) (hp : p.Yields w Q) :
    (holding p).Yields w Q :=
  yields_within rfl hQ fun u w₁ henter => by
    cases henter
    exact hp

/-- What is held while something runs makes no difference to what is added. -/
theorem adds_holding (hQ : ∀ a, World.Lasting (Q a)) (hp : p.Adds w Q) : (holding p).Adds w Q :=
  yields_holding (fun a => (World.lasting_growsTo w).and (hQ a)) hp

/-- What is kept in the hands of running code makes no difference to the result. -/
theorem yields_keeping [Holds α] (hQ : ∀ a, World.Lasting (Q a)) (hp : p.Yields w Q) :
    (keeping p).Yields w Q := by
  refine (yields_holding hQ hp).bind_adds hQ fun a w₁ _ => ?_
  refine (adds_change rfl).bind fun _ w₂ hg _ => adds_pure fun ha => ?_
  exact ha

/-- What is kept in the hands of running code makes no difference to what is added. -/
theorem adds_keeping [Holds α] (hQ : ∀ a, World.Lasting (Q a)) (hp : p.Adds w Q) :
    (keeping p).Adds w Q :=
  yields_keeping (fun a => (World.lasting_growsTo w).and (hQ a)) hp

/-- Doing the same with each of several things. -/
theorem adds_mapM {δ : Type} {f : α → Proc β} {R : δ → β → World → Prop}
    (hR : ∀ x b, World.Lasting (R x b)) {xs : List δ} {l : List α}
    (h : List.Forall₂ (fun x a => ∀ w₁, w.GrowsTo w₁ → (f a).Adds w₁ (R x)) xs l) :
    (l.mapM f).Adds w fun bs w₁ => List.Forall₂ (fun x b => R x b w₁) xs bs := by
  induction l generalizing w xs with
  | nil =>
    cases h
    exact adds_pure .nil
  | cons a l ih =>
    cases h with
    | cons ha hl =>
      rw [List.mapM_cons]
      refine (ha w (.refl w)).bind fun b w₁ hg hb => ?_
      have hl₁ := hl.imp fun x a h w₂ hg₂ => h w₂ (hg.trans hg₂)
      refine (ih hl₁).bind fun bs w₂ hg₂ hbs => adds_pure ?_
      exact .cons ((hR _ b).grows hg₂ hb) hbs

/-! ### Procedures that only add -/

/-- Whether a procedure has no parts and makes only changes that add. -/
def IsAdditive {α : Type} : Proc α → Prop
  | .done _ => True
  | .stop s => ∃ f, s = .failure f
  | .ask _ next => ∀ x, (next x).IsAdditive
  | .act c next => c.isAdditive = true ∧ ∀ x, (next x).IsAdditive
  | _ => False

@[simp] theorem isAdditive_pure (a : α) : (pure a : Proc α).IsAdditive := trivial

@[simp] theorem isAdditive_fail (e : Failure) : (fail e : Proc α).IsAdditive := ⟨e, rfl⟩

@[simp] theorem isAdditive_signal (s : Signal) : (signal s : Proc α).IsAdditive := ⟨_, rfl⟩

@[simp] theorem isAdditive_ofExcept (r : Except Failure α) : (ofExcept r).IsAdditive := by
  cases r <;> simp [ofExcept, IsAdditive]

theorem isAdditive_query (q : Query α) : (query q).IsAdditive := fun _ => trivial

theorem isAdditive_change {c : Change α} (hc : c.isAdditive = true) : (change c).IsAdditive :=
  ⟨hc, fun _ => trivial⟩

theorem IsAdditive.bind (hp : p.IsAdditive) (hf : ∀ a, (f a).IsAdditive) :
    (p >>= f).IsAdditive := by
  change (p.bind f).IsAdditive
  induction p with
  | done a => exact hf a
  | stop s => exact hp
  | ask q next ih => exact fun x => ih x (hp x) hf
  | act c next ih => exact ⟨hp.1, fun x => ih x (hp.2 x) hf⟩
  | task _ _ _ | inside _ _ _ _ _ | attempt _ _ _ _ | loop _ _ _ _ => exact hp.elim

/-- Such a procedure comes to an end, and the world has only grown. -/
theorem IsAdditive.adds (hp : p.IsAdditive) : p.Adds w fun _ _ => True := by
  induction p generalizing w with
  | done a => exact adds_pure trivial
  | stop s =>
    obtain ⟨e, rfl⟩ := hp
    exact adds_fail e
  | ask q next ih =>
    change (query q >>= next).Adds w _
    exact (adds_query q).bind fun x _ _ _ => ih x (hp x)
  | act c next ih =>
    change (change c >>= next).Adds w _
    exact (adds_change hp.1).bind fun x _ _ _ => ih x (hp.2 x)
  | task _ _ _ | inside _ _ _ _ _ | attempt _ _ _ _ | loop _ _ _ _ => exact hp.elim

end Proc

end Crossing
