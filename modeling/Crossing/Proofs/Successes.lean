import Crossing.Proofs.NumberCache

/-!
# Procedures that succeed

What procedures come to in a session in which script code takes in references only while
the host keeps them. There, all live handles have their objects, so that it can be shown
of a procedure that it does not fail.

- `World.Sustains`: the world has only grown, and evaluation is as deep as before;
- `Proc.IsDue`: such a session is about to do a procedure;
- `Proc.Ends`: the procedure comes to an end quietly, which is as it should be;
- `Proc.Succeeds`: it comes to a result as it should be, and the world has only grown;
- `Proc.Attains`: so it does in any session;
- `Proc.SucceedsUnless`: so it does, or it fails in one of some ways;
- `Ends.bind`, `Succeeds.bind`, `ends_within` and so on: from parts to the whole;
- `IsAdditive.succeeds`: what a procedure without parts gives, it succeeds with.
-/

namespace Crossing

variable {α β γ δ : Type} {w w₁ w₂ : World}

/-! ### Names that are never lost -/

/-- All symbols of a name are the one that the name stands for: none of them has been
uninterned. -/
def Interpreter.IsSole (i : Interpreter) (name : String) : Prop :=
  ∀ a value function, i.heap.get? a = some (.symbol name value function) →
    i.find? name = some a

/-- A name is sole if each symbol of that name is the one that the table gives for it. -/
theorem Interpreter.isSole_iff {i : Interpreter} {name : String} : i.IsSole name ↔
    ∀ a < i.heap.size, i.heap.symbolName? (.ref a) = some name → i.find? name = some a := by
  constructor
  · intro h a hlt hname
    simp only [Heap.symbolName?, Heap.shape] at hname
    split at hname
    · rename_i n value function hshape
      obtain rfl := Option.some.inj hname
      obtain ⟨b, hb, hcell⟩ := Heap.exists_ref_of_shape (h := i.heap) (o := .ref a) hshape
      obtain rfl := Obj.ref.inj hb
      exact h a value function hcell
    · cases hname
  · intro h a value function ha
    exact h a (Heap.lt_size_of_get? ha) (by simp only [Heap.symbolName?, Heap.shape_ref ha])

instance (i : Interpreter) (name : String) : Decidable (i.IsSole name) :=
  decidable_of_iff' _ Interpreter.isSole_iff

namespace Interpreter

variable {i j : Interpreter} {name : String}

/-- It stays so as long as names stay and symbols that are added are interned. -/
theorem IsSole.of_added (hi : i.IsSole name)
    (hnames : ∀ {a}, i.find? name = some a → j.find? name = some a)
    (hadded : ∀ a value function, j.heap.get? a = some (.symbol name value function) →
      (∃ value function, i.heap.get? a = some (.symbol name value function)) ∨
        j.find? name = some a) : j.IsSole name := by
  intro a value function ha
  obtain ⟨value', function', hold⟩ | hnew := hadded a value function ha
  · exact hnames (hi a value' function' hold)
  · exact hnew

/-- A new object is no second symbol of a name. -/
theorem IsSole.make (hi : i.IsSole name) (f : Fresh) : (i.make f).2.IsSole name := by
  refine hi.of_added (fun h => h) fun a value function ha => .inl ⟨value, function, ?_⟩
  obtain hold | ⟨-, hnew⟩ := Heap.get?_allocate_cases ha
  · exact hold
  · -- what a program makes is no symbol
    cases f <;> cases hnew

/-- Interning gives the symbol that is there, or makes the first one. -/
theorem IsSole.intern (hi : i.IsSole name) (n : String) : (i.intern n).2.IsSole name := by
  refine hi.of_added (fun h => find?_intern n h) fun a value function ha => ?_
  unfold Interpreter.intern at ha ⊢
  split at ha
  · exact .inl ⟨value, function, ha⟩
  · rename_i hnil
    rw [if_neg hnil]
    split at ha
    · exact .inl ⟨value, function, ha⟩
    · obtain hold | ⟨rfl, hnew⟩ := Heap.get?_allocate_cases ha
      · exact .inl ⟨value, function, hold⟩
      · cases hnew
        exact .inr (by simp [find?])

/-- To retain an object makes none. -/
theorem IsSole.retain (hi : i.IsSole name) (o : Obj) : (i.retain o).2.IsSole name := by
  unfold Interpreter.retain
  split <;> exact hi

theorem depth_intern (i : Interpreter) (n : String) : (i.intern n).2.depth = i.depth := by
  unfold intern
  split
  · rfl
  · split <;> rfl

theorem depth_retain (i : Interpreter) (o : Obj) : (i.retain o).2.depth = i.depth := by
  unfold retain
  split <;> rfl

end Interpreter

/-! ### Worlds that are sustained -/

/-- The world has only grown, no symbol has been added that is not interned, and evaluation
is as deep as before. -/
structure World.Sustains (w w₁ : World) : Prop where
  grown : w.GrowsTo w₁
  sole : ∀ {name}, w.host.IsSole name → w₁.host.IsSole name
  depth : w₁.host.depth = w.host.depth
  config : w₁.border.config = w.border.config

namespace World

theorem Sustains.refl (w : World) : w.Sustains w := ⟨.refl w, fun h => h, rfl, rfl⟩

theorem Sustains.trans (h₀₁ : w.Sustains w₁) (h₁₂ : w₁.Sustains w₂) : w.Sustains w₂ where
  grown := h₀₁.grown.trans h₁₂.grown
  sole h := h₁₂.sole (h₀₁.sole h)
  depth := h₁₂.depth.trans h₀₁.depth
  config := h₁₂.config.trans h₀₁.config

/-- The host is the same. -/
theorem Sustains.of_host (hg : w.GrowsTo w₁) (hhost : w₁.host = w.host)
    (hconfig : w₁.border.config = w.border.config) : w.Sustains w₁ :=
  ⟨hg, fun h => hhost ▸ h, by rw [hhost], hconfig⟩

theorem config_adopt (w : World) (id : ObjectId) :
    (w.adopt id).2.border.config = w.border.config := by
  unfold adopt
  split
  · split <;> rfl
  · rfl

theorem sustains_revive (w : World) (cached : Option Handle) :
    w.Sustains (w.revive cached).2 := by
  obtain ⟨h, -, -, heq⟩ | heq := w.revive_cases cached
  · rw [heq]
    exact .of_host (w.growsTo_hold [h]) rfl rfl
  · rw [heq]
    exact .refl w

end World

/-- The changes that only add sustain the world. -/
theorem Change.sustains_run {c : Change α} (hc : c.isAdditive = true) (hw : w.Sound)
    (hr : w.border.callbacks.Sound) : w.Sustains (c.run w).2 := by
  have hg := c.growsTo_run hc hw hr
  -- a change that only adds makes, retains, takes in or remembers something
  cases c with
  | make f => exact ⟨hg, fun h => h.make f, rfl, rfl⟩
  | intern name => exact ⟨hg, fun h => h.intern name, w.host.depth_intern name, rfl⟩
  | retain o => exact ⟨hg, fun h => h.retain o, w.host.depth_retain o, rfl⟩
  | adopt id => exact .of_host hg (w.host_adopt id) (w.config_adopt id)
  | recallSymbol kind name => exact w.sustains_revive _
  | recallNumber key => exact w.sustains_revive _
  | recordName h name =>
    refine .of_host hg rfl ?_
    simp only [run, Border.recordName]
    split
    · split <;> rfl
    · rfl
  | register c =>
    refine .of_host hg ?_ ?_ <;>
    · simp only [run]
      split <;> rfl
  | unwrap? key =>
    simp only [run]
    split
    · exact .of_host (w.growsTo_hold _) rfl rfl
    · exact .refl w
  | cacheSymbol _ _ _ | cacheNumber _ _ | hold _ => exact .of_host hg rfl rfl
  | _ => exact absurd hc Bool.false_ne_true

/-! ### Procedures that are due -/

namespace Proc

variable {scene : Scene} {p : Proc α} {f : α → Proc β} {a : α} {r : Except Failure α}

/-- A session, in which script code takes in references only while the host keeps them, is
about to do a procedure. -/
def IsDue (p : Proc α) (w : World) : Prop :=
  ∃ (config : Config) (steps : List Step) (β : Type) (f : α → Proc β)
    (k : Stack (List (Except Failure Answer × List Answer)) β),
    Moment.Reaches (Moment.Licensed .careful) (Transcript.start config steps) ⟨p >>= f, k, w⟩

/-- A part that comes to an end quietly may be done whatever script code may do. -/
theorem Comes.reaches_bind (hp : Comes scene p w r w₁) (f : α → Proc β) (k : Stack γ β) :
    Moment.Reaches (Moment.Licensed .careful) ⟨p >>= f, k, w⟩ ⟨ofExcept r >>= f, k, w₁⟩ :=
  Relation.ReflTransGen.mono (fun _ _ hgo => ⟨hgo.1.licensed, .next hgo.2⟩) _ _
    (hp.passes_bind f k)

/-- A procedure comes to one end. -/
theorem Comes.unique {scene' : Scene} {r' : Except Failure α} (h : Comes scene p w r w₁)
    (h' : Comes scene' p w r' w₂) : r' = r ∧ w₂ = w₁ := by
  have hends := (h.passes .top).passes.eq_of_next_eq_none (h'.passes .top).passes
    Moment.next_ended Moment.next_ended
  cases r <;> cases r' <;> cases hends <;> exact ⟨rfl, rfl⟩

namespace IsDue

theorem of_moment {config : Config} {steps : List Step}
    {k : Stack (List (Except Failure Answer × List Answer)) α}
    (h : Moment.Reaches (Moment.Licensed .careful) (Transcript.start config steps)
      ⟨p, k, w⟩) : p.IsDue w := by
  refine ⟨config, steps, α, .done, k, ?_⟩
  rwa [show p >>= Proc.done = p from bind_done p]

theorem isReached (h : p.IsDue w) : p.IsReached w := by
  obtain ⟨config, steps, β, f, k, hr⟩ := h
  exact ⟨config, steps, β, f, k, Moment.reaches_mono (fun _ _ => trivial) hr⟩

theorem steady (h : p.IsDue w) : w.Steady := by
  obtain ⟨config, steps, _, f, k, hr⟩ := h
  exact Transcript.steady_of_reaches hr

theorem bind_left (h : (p >>= f).IsDue w) : p.IsDue w := by
  obtain ⟨config, steps, _, g, k, hr⟩ := h
  rw [bind_assoc] at hr
  exact ⟨config, steps, _, _, k, hr⟩

/-- Once a part has come to a result, the rest is about to be done. -/
theorem bind_right (h : (p >>= f).IsDue w) (hp : Comes scene p w (.ok a) w₁) :
    (f a).IsDue w₁ := by
  obtain ⟨config, steps, _, g, k, hr⟩ := h
  rw [bind_assoc] at hr
  exact ⟨config, steps, _, g, k, hr.trans (hp.reaches_bind (fun a => f a >>= g) k)⟩

theorem task {t : Task α} (ht : t.isScript = false) (h : (perform t).IsDue w) :
    t.body.IsDue w := by
  obtain ⟨config, steps, _, g, k, hr⟩ := h
  refine of_moment (hr.tail ⟨Moment.IsQuiet.licensed ⟨ht, rfl⟩, .next rfl⟩)

theorem within {s : Scope} {u : Undo} (h : (within s p).IsDue w)
    (hs : s.enter w = .ok (u, w₁)) : p.IsDue w₁ := by
  obtain ⟨config, steps, _, g, k, hr⟩ := h
  refine of_moment (hr.tail ⟨Moment.IsQuiet.licensed ⟨rfl, rfl⟩, .next (Moment.next_inside hs)⟩)

theorem outcome (h : (outcome p).IsDue w) : p.IsDue w := by
  obtain ⟨config, steps, _, g, k, hr⟩ := h
  exact of_moment (hr.tail ⟨nofun, .next rfl⟩)

/-- A step that takes in no references from outside is played. -/
theorem step {s : Step} {args : List Value} (hs : License.careful.Admits s.deed)
    (hrefs : s.deed.references = []) (h : (perform (.step s args)).IsDue w) :
    (Script.playStep args s).IsDue w := by
  obtain ⟨config, steps, _, g, k, hr⟩ := h
  refine of_moment (hr.tail ⟨fun s' hs' => ?_, .next rfl⟩)
  cases hs'
  exact ⟨hs, fun _ i hi => by rw [hrefs] at hi; cases hi⟩

end IsDue

/-- What the next step of a session does. -/
theorem IsDue.next_deed {deed : Deed} {target : Option String} {logged : Bool} {steps : List Step}
    (h : ((Step.mk deed target logged :: steps).mapM Transcript.topStep).IsDue w)
    (hdeed : License.careful.Admits deed) (hrefs : deed.references = []) :
    (Script.perform [] deed).IsDue w := by
  rw [List.mapM_cons] at h
  have hplayed : (holding (perform (.step (.mk deed target logged) []) >>= fun r =>
      Script.describe r)).IsDue w := h.bind_left.bind_left.outcome
  have hstep : (Script.playStep [] (.mk deed target logged)).IsDue w :=
    IsDue.step (s := .mk deed target logged) hdeed hrefs (hplayed.within rfl).bind_left
  exact hstep.bind_left.bind_left.within rfl

/-- What the first step of a session does. -/
theorem isDue_perform (config : Config) {deed : Deed} (hdeed : License.careful.Admits deed)
    (hrefs : deed.references = []) : (Script.perform [] deed).IsDue (.initial config) := by
  have hreaches : Moment.Reaches (Moment.Licensed .careful)
      (Transcript.start config [.mk deed none false])
      ⟨[Step.mk deed none false].mapM Transcript.topStep, .top, .initial config⟩ := .refl
  exact (IsDue.of_moment hreaches).next_deed hdeed hrefs

/-! ### Ends -/

/-- Where it is due, a procedure comes to an end quietly, and the end is as `Q` says. -/
def Ends (p : Proc α) (w : World) (Q : Except Failure α → World → Prop) : Prop :=
  p.IsDue w → ∃ r w₁, Comes w.scene p w r w₁ ∧ Q r w₁

variable {Q Q' : Except Failure α → World → Prop} {R : Except Failure β → World → Prop}

theorem Ends.mono (hp : p.Ends w Q) (h : ∀ r w₁, Q r w₁ → Q' r w₁) : p.Ends w Q' := by
  intro hdue
  obtain ⟨r, w₁, hcomes, hQ⟩ := hp hdue
  exact ⟨r, w₁, hcomes, h r w₁ hQ⟩

theorem Ends.bind (hp : p.Ends w Q) (hok : ∀ a w₁, Q (.ok a) w₁ → (f a).Ends w₁ R)
    (herror : ∀ e w₁, Q (.error e) w₁ → R (.error e) w₁) : (p >>= f).Ends w R := by
  intro hdue
  obtain ⟨r, w₁, hcomes, hQ⟩ := hp hdue.bind_left
  cases r with
  | error e => exact ⟨.error e, w₁, hcomes.bind_error, herror e w₁ hQ⟩
  | ok a =>
    obtain ⟨s, w₂, hrest, hR⟩ := hok a w₁ hQ (hdue.bind_right hcomes)
    rw [hcomes.scene_end] at hrest
    exact ⟨s, w₂, hcomes.bind hrest, hR⟩

/-- A question leaves the scene as it is. -/
theorem comes_query_bind {scene : Scene} {q : Query α} {g : α → Proc β} {r : Except Failure β}
    (hw : w.scene = scene) (h : Comes scene (g (q.ask w)) w r w₁) :
    Comes scene (query q >>= g) w r w₁ :=
  .ask hw h

theorem ends_pure (ha : Q (.ok a) w) : (pure a : Proc α).Ends w Q :=
  fun _ => ⟨.ok a, w, .done rfl, ha⟩

theorem ends_fail {e : Failure} (he : Q (.error e) w) : (fail e : Proc α).Ends w Q :=
  fun _ => ⟨.error e, w, .fail rfl, he⟩

/-- A change that keeps to the scene. -/
theorem ends_change {c : Change α} (hc : (c.run w).2.scene = w.scene)
    (h : Q (.ok (c.run w).1) (c.run w).2) : (change c).Ends w Q :=
  fun _ => ⟨.ok _, _, .act rfl (.done hc), h⟩

theorem ends_perform {t : Task α} (ht : t.isScript = false) (hbody : t.body.Ends w Q) :
    (perform t).Ends w Q := by
  intro hdue
  obtain ⟨r, w₁, hcomes, hQ⟩ := hbody (hdue.task ht)
  cases r with
  | error e => exact ⟨.error e, w₁, .taskFails rfl ht hcomes, hQ⟩
  | ok a => exact ⟨.ok a, w₁, .task rfl ht hcomes (.done hcomes.scene_end), hQ⟩

/-- The end of a part in a scope, where the scope has ended. -/
theorem ends_within {s : Scope} {u : Undo} (hs : s.enter w = .ok (u, w₁))
    (hscene : w₁.scene = w.scene) (hleave : ∀ w : World, (u.run w).scene = w.scene)
    (hp : p.Ends w₁ fun r w₂ => Q r (u.run w₂)) : (within s p).Ends w Q := by
  intro hdue
  obtain ⟨r, w₂, hcomes, hQ⟩ := hp (hdue.within hs)
  have hend : (u.run w₂).scene = w.scene := by rw [hleave, hcomes.scene_end, hscene]
  rw [hscene] at hcomes
  cases r with
  | error e => exact ⟨.error e, _, .insideFails rfl hs hcomes hend, hQ⟩
  | ok a => exact ⟨.ok a, _, .inside rfl hs hcomes (.done hend), hQ⟩

/-- Only what a part gives back is held then besides what was held before. -/
theorem ends_keeping [Holds α] (hp : p.Ends w fun r w₁ =>
      Q r ((Undo.holdOnly (r.toOption.elim [] Holds.handles ++ w.script.held)).run w₁)) :
    (keeping p).Ends w Q := by
  refine Ends.bind (Q := fun r w₁ => Q r ((Undo.holdOnly
    (r.toOption.elim [] Holds.handles ++ w.script.held)).run w₁) ∧
      w₁.script.held = w.script.held) ?_ (fun a w₁ ha => ?_) fun e w₁ he => ?_
  · refine ends_within rfl rfl (fun _ => rfl) (hp.mono fun r w₁ hr => ⟨hr, rfl⟩)
  · refine Ends.bind (Q := fun r w₂ => r = .ok () ∧ Q (.ok a) w₂)
      (ends_change rfl ⟨rfl, ?_⟩) (fun _ w₂ h => ends_pure h.2) fun _ _ h => by cases h.1
    obtain ⟨ha, hheld⟩ := ha
    change Q _ (w₁.hold _)
    rw [World.hold, hheld]
    exact ha
  · obtain ⟨he, hheld⟩ := he
    rw [show (Undo.holdOnly _).run w₁ = w₁ by
      rw [Undo.run]
      simp only [Except.toOption, Option.elim, List.nil_append, ← hheld]] at he
    exact he

/-- What is shown of a result. -/
theorem Ends.and_yields {S : α → World → Prop} (hp : p.Ends w Q) (hy : p.Yields w S) :
    p.Ends w fun r w₁ => Q r w₁ ∧ ∀ a, r = .ok a → S a w₁ := by
  intro hdue
  obtain ⟨r, w₁, hcomes, hQ⟩ := hp hdue
  obtain ⟨r', w₂, hcomes', hS⟩ := hy hdue.isReached
  obtain ⟨rfl, rfl⟩ := hcomes.unique hcomes'
  exact ⟨r', w₂, hcomes, hQ, hS⟩

/-! ### Successes -/

/-- Where it is due, a procedure comes to a result quietly, which is as `Q` says, and the
world is sustained. -/
def Succeeds (p : Proc α) (w : World) (Q : α → World → Prop) : Prop :=
  p.Ends w fun r w₁ => ∃ a, r = .ok a ∧ w.Sustains w₁ ∧ Q a w₁

variable {S S' : α → World → Prop} {T : β → World → Prop}

theorem Succeeds.mono (hp : p.Succeeds w S) (h : ∀ a w₁, w.Sustains w₁ → S a w₁ → S' a w₁) :
    p.Succeeds w S' := by
  refine Ends.mono hp fun r w₁ hr => ?_
  obtain ⟨a, ha, hs, hS⟩ := hr
  exact ⟨a, ha, hs, h a w₁ hs hS⟩

theorem Succeeds.ends_bind (hp : p.Succeeds w S)
    (hf : ∀ a w₁, w.Sustains w₁ → S a w₁ → (f a).Ends w₁ R) : (p >>= f).Ends w R := by
  refine Ends.bind hp (fun a w₁ h => ?_) fun e w₁ h => ?_
  · obtain ⟨a', ha, hs, hS⟩ := h
    obtain rfl := Except.ok.inj ha
    exact hf a w₁ hs hS
  · obtain ⟨a', ha, -⟩ := h
    cases ha

theorem Succeeds.bind (hp : p.Succeeds w S)
    (hf : ∀ a w₁, w.Sustains w₁ → S a w₁ → (f a).Succeeds w₁ T) : (p >>= f).Succeeds w T := by
  refine hp.ends_bind fun a w₁ hs hS => Ends.mono (hf a w₁ hs hS) fun r w₂ hr => ?_
  obtain ⟨b, hb, hs₂, hT⟩ := hr
  exact ⟨b, hb, hs.trans hs₂, hT⟩

theorem succeeds_pure (ha : S a w) : (pure a : Proc α).Succeeds w S :=
  ends_pure ⟨a, rfl, .refl w, ha⟩

theorem succeeds_query (q : Query α) : (query q).Succeeds w fun a w₁ => a = q.ask w ∧ w₁ = w :=
  fun _ => ⟨.ok _, w, .ask rfl (.done rfl), _, rfl, .refl w, rfl, rfl⟩

theorem succeeds_change {c : Change α} (hc : c.isAdditive = true) :
    (change c).Succeeds w fun a w₁ => a = (c.run w).1 ∧ w₁ = (c.run w).2 := by
  intro hdue
  have hreached := hdue.isReached
  have hs := c.sustains_run hc hreached.sound hreached.callbacks
  exact ⟨.ok _, _, .act rfl (.done hs.grown.scene), _, rfl, hs, rfl, rfl⟩

/-- What is shown of every result holds of the result. -/
theorem Succeeds.and_adds (hp : p.Succeeds w S) (ha : p.Adds w S') :
    p.Succeeds w fun a w₁ => S a w₁ ∧ S' a w₁ := by
  refine (Ends.and_yields hp ha).mono fun r w₁ hr => ?_
  obtain ⟨⟨a, rfl, hs, hS⟩, hS'⟩ := hr
  exact ⟨a, rfl, hs, hS, (hS' a rfl).2⟩

/-- A scope that takes nothing away sustains the world, where it starts and where it ends. -/
theorem succeeds_within {s : Scope} {u : Undo} (hadds : s.isAdditive = true)
    (hs : s.enter w = .ok (u, w₁)) (hS : ∀ a, World.Lasting (S a))
    (hleaves : ∀ w₂ : World, w₁.Sustains w₂ → w.Sustains (u.run w₂))
    (hp : p.Succeeds w₁ S) : (within s p).Succeeds w S := by
  obtain ⟨hg, hleave⟩ := Scope.growsTo_enter hadds hs
  refine ends_within hs hg.scene (fun w => (hleave w).scene) (Ends.mono hp fun r w₂ hr => ?_)
  obtain ⟨a, ha, hw₂, hSa⟩ := hr
  exact ⟨a, ha, hleaves w₂ hw₂, (hS a).grows (hleave w₂) hSa⟩

/-- What is held while something runs makes no difference, if the statement outlives the
release. -/
theorem succeeds_holding (hS : ∀ a, World.Lasting (S a)) (hp : p.Succeeds w S) :
    (holding p).Succeeds w S :=
  succeeds_within rfl rfl hS
    (fun _ hw₂ => hw₂.trans (.of_host (.of_host (.refl _) rfl rfl) rfl rfl)) hp

/-! ### Successes in any session -/

/-- In any session that is about to do it, a procedure comes to a result quietly, which is as
`S` says, and the world is sustained. -/
def Attains (p : Proc α) (w : World) (S : α → World → Prop) : Prop :=
  p.IsReached w → ∃ a w₁, Comes w.scene p w (.ok a) w₁ ∧ w.Sustains w₁ ∧ S a w₁

/-- What attains a result succeeds. -/
theorem Attains.succeeds (hp : p.Attains w S) : p.Succeeds w S := by
  intro hdue
  obtain ⟨a, w₁, hcomes, hs, hS⟩ := hp hdue.isReached
  exact ⟨.ok a, w₁, hcomes, a, rfl, hs, hS⟩

theorem Attains.mono (hp : p.Attains w S) (h : ∀ a w₁, w.Sustains w₁ → S a w₁ → S' a w₁) :
    p.Attains w S' := by
  intro hr
  obtain ⟨a, w₁, hcomes, hs, hS⟩ := hp hr
  exact ⟨a, w₁, hcomes, hs, h a w₁ hs hS⟩

theorem Attains.bind (hp : p.Attains w S)
    (hf : ∀ a w₁, w.Sustains w₁ → S a w₁ → (f a).Attains w₁ T) : (p >>= f).Attains w T := by
  intro hr
  obtain ⟨a, w₁, hcomes, hs, hS⟩ := hp hr.bind_left
  obtain ⟨b, w₂, hrest, hs₂, hT⟩ := hf a w₁ hs hS (hr.bind_right hcomes)
  rw [hcomes.scene_end] at hrest
  exact ⟨b, w₂, hcomes.bind hrest, hs.trans hs₂, hT⟩

theorem attains_pure (ha : S a w) : (pure a : Proc α).Attains w S :=
  fun _ => ⟨a, w, .done rfl, .refl w, ha⟩

theorem attains_change {c : Change α} (hc : c.isAdditive = true) :
    (change c).Attains w fun a w₁ => a = (c.run w).1 ∧ w₁ = (c.run w).2 := by
  intro hr
  have hs := c.sustains_run hc hr.sound hr.callbacks
  exact ⟨_, _, .act rfl (.done hs.grown.scene), hs, rfl, rfl⟩

/-- Doing the same with each of several things. -/
theorem attains_mapM {f : α → Proc β} {R : δ → β → World → Prop}
    (hR : ∀ x b w w₁, w.Sustains w₁ → R x b w → R x b w₁) {xs : List δ} {l : List α}
    (h : List.Forall₂ (fun x a => ∀ w₁, w.Sustains w₁ → (f a).Attains w₁ (R x)) xs l) :
    (l.mapM f).Attains w fun bs w₁ => List.Forall₂ (fun x b => R x b w₁) xs bs := by
  induction l generalizing w xs with
  | nil =>
    cases h
    exact attains_pure .nil
  | cons a l ih =>
    cases h with
    | cons ha hl =>
      rw [List.mapM_cons]
      refine (ha w (.refl w)).bind fun b w₁ hs hb => ?_
      have hl₁ := hl.imp fun x a h w₂ hs₂ => h w₂ (hs.trans hs₂)
      refine (ih hl₁).bind fun bs w₂ hs₂ hbs => attains_pure ?_
      exact .cons (hR _ b _ _ hs₂ hb) hbs

/-! ### Successes but for some failures -/

/-- Where it is due, a procedure comes to a result quietly, which is as `Q` says, or to a
failure as `E` says. Either way, the world is sustained. -/
def SucceedsUnless (E : Failure → Prop) (p : Proc α) (w : World) (Q : α → World → Prop) : Prop :=
  p.Ends w fun r w₁ => w.Sustains w₁ ∧ (∀ a, r = .ok a → Q a w₁) ∧ ∀ e, r = .error e → E e

variable {E : Failure → Prop}

theorem Succeeds.unless (hp : p.Succeeds w S) : p.SucceedsUnless E w S := by
  refine Ends.mono hp fun r w₁ hr => ?_
  obtain ⟨a, rfl, hs, hS⟩ := hr
  exact ⟨hs, fun b hb => Except.ok.inj hb ▸ hS, nofun⟩

/-- Without failures to except, what is left is a success. -/
theorem SucceedsUnless.succeeds (hp : p.SucceedsUnless (fun _ => False) w S) :
    p.Succeeds w S := by
  refine Ends.mono hp fun r w₁ hr => ?_
  obtain ⟨hs, hok, herror⟩ := hr
  cases r with
  | ok a => exact ⟨a, rfl, hs, hok a rfl⟩
  | error e => exact (herror e rfl).elim

theorem SucceedsUnless.mono (hp : p.SucceedsUnless E w S)
    (h : ∀ a w₁, w.Sustains w₁ → S a w₁ → S' a w₁) : p.SucceedsUnless E w S' :=
  Ends.mono hp fun _ w₁ hr => ⟨hr.1, fun a ha => h a w₁ hr.1 (hr.2.1 a ha), hr.2.2⟩

theorem SucceedsUnless.ends_bind (hp : p.SucceedsUnless E w S)
    (hf : ∀ a w₁, w.Sustains w₁ → S a w₁ → (f a).Ends w₁ R)
    (herror : ∀ e w₁, w.Sustains w₁ → E e → R (.error e) w₁) : (p >>= f).Ends w R :=
  Ends.bind hp (fun a w₁ h => hf a w₁ h.1 (h.2.1 a rfl))
    fun e w₁ h => herror e w₁ h.1 (h.2.2 e rfl)

theorem SucceedsUnless.bind (hp : p.SucceedsUnless E w S)
    (hf : ∀ a w₁, w.Sustains w₁ → S a w₁ → (f a).SucceedsUnless E w₁ T) :
    (p >>= f).SucceedsUnless E w T := by
  refine hp.ends_bind (fun a w₁ hs hS => Ends.mono (hf a w₁ hs hS) fun r w₂ hr =>
    ⟨hs.trans hr.1, hr.2⟩) fun e w₁ hs he => ⟨hs, nofun, fun e' he' => ?_⟩
  exact Except.error.inj he' ▸ he

/-- What is shown of every result holds of the result. -/
theorem SucceedsUnless.and_adds (hp : p.SucceedsUnless E w S) (ha : p.Adds w S') :
    p.SucceedsUnless E w fun a w₁ => S a w₁ ∧ S' a w₁ :=
  (Ends.and_yields hp ha).mono fun _ _ hr =>
    ⟨hr.1.1, fun a ha => ⟨hr.1.2.1 a ha, (hr.2 a ha).2⟩, hr.1.2.2⟩

theorem succeedsUnless_pure (ha : S a w) : (pure a : Proc α).SucceedsUnless E w S :=
  (succeeds_pure ha).unless

theorem succeedsUnless_perform {t : Task α} (ht : t.isScript = false)
    (hbody : t.body.SucceedsUnless E w S) : (perform t).SucceedsUnless E w S :=
  ends_perform ht hbody

/-- What lasts of the result of a part holds at the end, and the handles in it are held. -/
theorem succeedsUnless_keeping [Holds α] (hS : ∀ a, World.Lasting (S a))
    (hp : p.SucceedsUnless E w S) : (keeping p).SucceedsUnless E w fun a w₁ =>
      S a w₁ ∧ ∀ h ∈ Holds.handles a, h ∈ w₁.script.held := by
  refine ends_keeping (Ends.mono hp fun r w₁ hr => ?_)
  have hg : w₁.GrowsTo
      ((Undo.holdOnly (r.toOption.elim [] Holds.handles ++ w.script.held)).run w₁) :=
    .of_host (.refl _) rfl rfl
  refine ⟨hr.1.trans (.of_host hg rfl rfl), fun a ha => ⟨(hS a).grows hg (hr.2.1 a ha), ?_⟩, hr.2.2⟩
  subst ha
  exact fun h hh => List.mem_append_left _ hh

/-- What is held while something runs makes no difference, with the same failures. -/
theorem succeedsUnless_holding (hS : ∀ a, World.Lasting (S a)) (hp : p.SucceedsUnless E w S) :
    (holding p).SucceedsUnless E w S := by
  refine ends_within rfl rfl (fun _ => rfl) (Ends.mono hp fun r w₁ hr => ?_)
  have hg : w₁.GrowsTo ((Undo.holdOnly w.script.held).run w₁) := .of_host (.refl _) rfl rfl
  exact ⟨hr.1.trans (.of_host hg rfl rfl), fun a ha => (hS a).grows hg (hr.2.1 a ha), hr.2.2⟩

/-- So it is with a part that succeeds. -/
theorem succeeds_keeping [Holds α] (hS : ∀ a, World.Lasting (S a)) (hp : p.Succeeds w S) :
    (keeping p).Succeeds w fun a w₁ => S a w₁ ∧ ∀ h ∈ Holds.handles a, h ∈ w₁.script.held :=
  (succeedsUnless_keeping hS hp.unless).succeeds

/-- Doing the same with each of several things, up to the first that fails. -/
theorem succeedsUnless_mapM {f : α → Proc β} {R : δ → β → World → Prop}
    (hR : ∀ x b w w₁, w.Sustains w₁ → R x b w → R x b w₁) {xs : List δ} {l : List α}
    (h : List.Forall₂ (fun x a => ∀ w₁, w.Sustains w₁ → (f a).SucceedsUnless E w₁ (R x)) xs l) :
    (l.mapM f).SucceedsUnless E w fun bs w₁ => List.Forall₂ (fun x b => R x b w₁) xs bs := by
  induction l generalizing w xs with
  | nil =>
    cases h
    exact succeedsUnless_pure .nil
  | cons a l ih =>
    cases h with
    | cons ha hl =>
      rw [List.mapM_cons]
      refine (ha w (.refl w)).bind fun b w₁ hs hb => ?_
      have hl₁ := hl.imp fun x a h w₂ hs₂ => h w₂ (hs.trans hs₂)
      refine (ih hl₁).bind fun bs w₂ hs₂ hbs => succeedsUnless_pure ?_
      exact .cons (hR _ b _ _ hs₂ hb) hbs

/-- Doing the same with each of several things. -/
theorem succeeds_mapM {f : α → Proc β} {R : δ → β → World → Prop}
    (hR : ∀ x b w w₁, w.Sustains w₁ → R x b w → R x b w₁) {xs : List δ} {l : List α}
    (h : List.Forall₂ (fun x a => ∀ w₁, w.Sustains w₁ → (f a).Succeeds w₁ (R x)) xs l) :
    (l.mapM f).Succeeds w fun bs w₁ => List.Forall₂ (fun x b => R x b w₁) xs bs :=
  (succeedsUnless_mapM hR (h.imp fun _ _ ha w₁ hs => (ha w₁ hs).unless)).succeeds

/-! ### Procedures without parts -/

/-- What a procedure without parts comes to that only adds, in any session: the world is
sustained, and handles that were held are held. -/
theorem IsAdditive.comes (hp : p.IsAdditive) (hr : p.IsReached w) : ∃ r w₁,
    Comes w.scene p w r w₁ ∧ w.Sustains w₁ ∧ w.script.held <:+ w₁.script.held := by
  -- the induction is on the procedure; tasks and scopes are not among what only adds
  induction p generalizing w with
  | done a => exact ⟨.ok a, w, .done rfl, .refl w, List.suffix_rfl⟩
  | stop s =>
    obtain ⟨e, rfl⟩ := hp
    exact ⟨.error e, w, .fail rfl, .refl w, List.suffix_rfl⟩
  | ask q next ih =>
    have hrest : (next (q.ask w)).IsReached w :=
      IsReached.bind_right (p := query q) (f := next) hr (.ask rfl (.done rfl))
    obtain ⟨r, w₁, hcomes, h⟩ := ih (q.ask w) (hp _) hrest
    exact ⟨r, w₁, .ask rfl hcomes, h⟩
  | act c next ih =>
    have hs := c.sustains_run hp.1 hr.sound hr.callbacks
    have hrest : (next (c.run w).1).IsReached (c.run w).2 :=
      IsReached.bind_right (p := change c) (f := next) hr (.act rfl (.done hs.grown.scene))
    obtain ⟨r, w₁, hcomes, hs₁, hheld⟩ := ih _ (hp.2 _) hrest
    rw [hs.grown.scene] at hcomes
    exact ⟨r, w₁, .act rfl hcomes, hs.trans hs₁, (c.held_run w).trans hheld⟩
  | task _ _ _ | inside _ _ _ _ _ | attempt _ _ _ _ | loop _ _ _ _ => exact hp.elim

/-- What only adds sustains the world in which it ends, and lets go of nothing that running
code holds. -/
theorem IsAdditive.ends (hp : p.IsAdditive) :
    p.Ends w fun _ w₁ => w.Sustains w₁ ∧ w.script.held <:+ w₁.script.held :=
  fun hdue => hp.comes hdue.isReached

/-- What such a procedure gives, it comes to in any session. -/
theorem IsAdditive.attains (hp : p.IsAdditive) (hgives : p.Gives 0 w (.ok a) w₁) :
    p.Attains w fun a' w₂ => a' = a ∧ w₂ = w₁ := by
  intro hr
  obtain ⟨r, w₂, hcomes, hs, -⟩ := hp.comes hr
  obtain ⟨rfl, rfl⟩ := hcomes.run_eq (hgives.run (Nat.zero_le _))
  exact ⟨a, w₁, hcomes, hs, rfl, rfl⟩

/-- What such a procedure gives, it succeeds with. -/
theorem IsAdditive.succeeds (hp : p.IsAdditive)
    (hgives : p.IsDue w → p.Gives 0 w (.ok a) w₁) :
    p.Succeeds w fun a' w₂ => a' = a ∧ w₂ = w₁ ∧ w.script.held <:+ w₂.script.held := by
  intro hdue
  obtain ⟨r, w₂, hcomes, hs, hheld⟩ := hp.ends hdue
  obtain ⟨rfl, rfl⟩ := hcomes.run_eq ((hgives hdue).run (Nat.zero_le _))
  exact ⟨.ok a, w₁, hcomes, a, rfl, hs, rfl, rfl, hheld⟩

end Proc

end Crossing
