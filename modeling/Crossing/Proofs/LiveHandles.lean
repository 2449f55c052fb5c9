import Crossing.Proofs.TwoRuns.Simulation

/-!
# Live handles

What holds of live handles at every moment of every session, with sweeps anywhere
at safepoints.

- `Moment.Alike.precedes`: the host goes on from moment to moment, so that numbers
  never come to stand for other objects;
- `live_handles_resolve`: live handles do not dangle, if script code takes in
  references only while the host keeps them;
- `live_handles_unique`: an object has one live handle, whatever script code does.
-/

namespace Crossing

variable {L : License} {α β γ : Type} {w w₁ : World} {h g : Handle}

namespace Moment

variable {m m₁ : Moment γ}

/-! ### What every moment keeps to -/

variable {Z : γ → γ → Prop}

theorem Alike.sound (h : Alike L Z m m) : m.world.Sound := by
  obtain ⟨-, -, -, hf⟩ := h
  exact hf.left

/-- The live handles of a run that is like itself are tracked. -/
theorem Alike.tracks (hm : Alike L Z m m) (hh : h ∈ m.world.roots) :
    m.world.border.Tracks h := by
  obtain ⟨-, -, -, hf⟩ := hm
  obtain ⟨_, -, hloose⟩ := hf.exists_root hh
  exact hf.tracks hloose

/-- The live handles of a run that is like itself resolve, unless it is free to release
numbers. -/
theorem Alike.resolves (hm : Alike L Z m m) (hL : L ≠ .free) (hh : h ∈ m.world.roots) :
    ∃ o, m.world.host.resolve? h.id = some o := by
  obtain @⟨_, P, _, _, _, _, _, _, _, _, -, -, -, hf⟩ := hm
  obtain ⟨_, -, hloose⟩ := hf.exists_root hh
  obtain ⟨o, ho, -⟩ := hf.known hL (P.known_of_loose hloose)
  exact ⟨o, ho⟩

/-- The host goes on from moment to moment. -/
theorem Alike.precedes (hm : Alike L Z m m) (hr : Reaches (Licensed L) m m₁) :
    m.world.host.Precedes m₁.world.host := by
  induction hr with
  | refl => exact .refl _
  | tail hr hgo ih => exact ih.trans (hgo.2.precedes (hm.reaches_self hr).sound)

/-- Numbers of live handles stand for the same object from moment to moment. -/
theorem Alike.resolve?_eq (hm : Alike L Z m m) (hL : L ≠ .free)
    (hr : Reaches (Licensed L) m m₁) (hh : h ∈ m.world.roots) (hh₁ : h ∈ m₁.world.roots) :
    m₁.world.host.resolve? h.id = m.world.host.resolve? h.id := by
  obtain ⟨o, ho⟩ := hm.resolves hL hh
  obtain ⟨o₁, ho₁⟩ := (hm.reaches_self hr).resolves hL hh₁
  have hle := Interpreter.le_of_resolve? hm.sound.host ho
  rw [(hm.precedes hr).ages.resolve? hle ho₁, ho₁]

end Moment

/-- What a session keeps to that script code may do anything in. -/
theorem Transcript.alike_of_reaches {config : Config} {steps : List Step}
    {ok : Moment (List (Except Failure Answer × List Answer)) → Prop}
    {m : Moment (List (Except Failure Answer × List Answer))}
    (hm : Moment.Reaches ok (start config steps) m) :
    m.Alike .free (List.Forall₂ (ReportAlike (Answer.Alike .free))) m := by
  refine (start_alike config steps).reaches_self (Moment.reaches_mono (fun m _ => ?_) hm)
  exact fun _ _ => ⟨trivial, nofun⟩

/-! ### No live handle dangles -/

namespace Transcript

open Moment

/-- In a session in which script code takes in references only while the host keeps
them, with sweeps anywhere: a live handle stands for an object that the host keeps,
and for the same one as long as it is live, and a sweep releases neither what has
a live handle nor what a callback in progress has among its arguments. -/
theorem live_handles_resolve (config : Config) (steps : List Step)
    {m m₁ : Moment (List (Except Failure Answer × List Answer))}
    (hm : Reaches (Licensed .careful) (start config steps) m)
    (hm₁ : Reaches (Licensed .careful) m m₁) :
    (∀ h ∈ m.world.roots, ∃ o, m.world.host.resolve? h.id = some o ∧
      m.world.sweep.2.host.resolve? h.id = some o ∧
      (h ∈ m₁.world.roots → m₁.world.host.resolve? h.id = some o)) ∧
    ∀ i ∈ m.world.unreachable, (∀ h ∈ m.world.roots, h.id ≠ i) ∧
      ∀ call ∈ m.world.border.pending, i ∉ call.pinned := by
  have hinv := (start_alike config steps).reaches_self hm
  constructor
  · intro h hh
    obtain ⟨o, ho⟩ := hinv.resolves nofun hh
    refine ⟨o, ho, ?_, fun hh₁ => ?_⟩
    · rwa [(World.keeps_sweep hinv.sound).kept (hinv.tracks hh) hh]
    · rw [hinv.resolve?_eq nofun hm₁ hh hh₁, ho]
  · intro i hi
    constructor
    · rintro h hh rfl
      exact World.id_notMem_unreachable hinv.sound (hinv.tracks hh) hh hi
    · intro call hcall hpinned
      obtain ⟨t, -, -, -, hnot⟩ := World.mem_unreachable_iff.mp hi
      exact hnot (List.mem_flatMap.mpr ⟨call, hcall, hpinned⟩)

/-- A session that looks up a symbol and sweeps. -/
def lookupAndSweep : Moment (List (Except Failure Answer × List Answer)) :=
  start .standard [.mk (.lookup "car" .symbol false) (some "f") false, .mk .sweep none false]

/-- The handle that the session looks up is live before the sweep and at the end. -/
theorem live_handles_resolve_lookup :
    ⟨1, ⟨1⟩⟩ ∈ (lookupAndSweep.after 22).world.roots ∧
      ⟨1, ⟨1⟩⟩ ∈ ((lookupAndSweep.after 22).after 9).world.roots ∧
      ∃ o, (lookupAndSweep.after 22).world.host.resolve? ⟨1⟩ = some o ∧
        ((lookupAndSweep.after 22).after 9).world.host.resolve? ⟨1⟩ = some o := by
  have hfacts : (∀ i < 22, (lookupAndSweep.after i).Licensed .careful) ∧
      (∀ i < 9, ((lookupAndSweep.after 22).after i).Licensed .careful) ∧
      ⟨1, ⟨1⟩⟩ ∈ (lookupAndSweep.after 22).world.roots ∧
      ⟨1, ⟨1⟩⟩ ∈ ((lookupAndSweep.after 22).after 9).world.roots := by
    rw [lookupAndSweep, start_eq]
    decide +kernel
  obtain ⟨hlicensed, hlicensed₁, hlive, hlive₁⟩ := hfacts
  have hm : Reaches (Licensed .careful) lookupAndSweep (lookupAndSweep.after 22) :=
    reaches_after hlicensed
  have hm₁ : Reaches (Licensed .careful) (lookupAndSweep.after 22)
      ((lookupAndSweep.after 22).after 9) := reaches_after hlicensed₁
  obtain ⟨o, ho, -, ho₁⟩ := (live_handles_resolve .standard _ hm hm₁).1 _ hlive
  exact ⟨hlive, hlive₁, o, ho, ho₁ hlive₁⟩

end Transcript

/-! ### An object has one live handle -/

namespace Border

/-- However an object comes over, script code gets the handle `h`. -/
structure ArrivesAs (w : World) (o : Obj) (h : Handle) : Prop where
  /-- If the host sends a reference, it is to `h`. -/
  sent : ∀ i w', (Host.send o).run w = (.ok (.reference i), w') → i = h.id
  /-- A reference to `h` is taken in as `h`. -/
  unpacked : (unpack (.reference h.id)).run w = (.ok (.handle h), w.hold [h])
  /-- So is an object that was made for script code. -/
  adopted : (adopt o).run w = (.ok h, w.hold [h])
  /-- So is a symbol that is looked up. -/
  lookedUp : ∀ name kind, ((Change.intern name).run w).1 = o →
    ((internNow name kind).run w).1 = .ok h

end Border

section Arrival

variable {o : Obj} {id : ObjectId}

theorem run_query_bind (q : Query α) (f : α → Proc β) (w : World) :
    (Proc.query q >>= f).run w = (f (q.ask w)).run w := rfl

theorem run_change_bind (c : Change α) (f : α → Proc β) (w : World) :
    (Proc.change c >>= f).run w = (f (c.run w).1).run (c.run w).2 := rfl

/-- The host keeps an object that it keeps already under the same number. -/
theorem run_retain (hw : w.Sound) (ho : o.isHeap = true) (hk : w.host.resolve? id = some o) :
    (Change.retain o).run w = (id, w) := by
  obtain ⟨host, border, script, clock⟩ := w
  simp only [Change.run, World.onHost, Interpreter.retain_of_resolve? hw.host ho hk]

/-- An object that has a live handle is taken in by it. -/
theorem run_adopt (hw : w.Sound) (ht : w.border.Tracks h) (hh : h ∈ w.roots) :
    (Change.adopt h.id).run w = (h, w.hold [h]) := World.adopt_of_mem_roots hw ht hh

/-- A number resolves to the same object in a world with the same rest. -/
theorem resolve?_of_rest (hr : w.SameRest w₁) (id : ObjectId) :
    w₁.host.resolve? id = w.host.resolve? id := by
  rw [Interpreter.resolve?, Interpreter.resolve?, hr.retained]

/-- An object that is retained is referred to by the number that it has. -/
theorem refer_reference (hw : w.Sound) (ho : o.isHeap = true)
    (hk : w.host.resolve? id = some o) (hr : w.SameRest w₁) {i : ObjectId} {w' : World}
    (h : (Host.refer o).run w₁ = (.ok (.reference i), w')) : i = id := by
  have hk₁ : w₁.host.resolve? id = some o := by rwa [resolve?_of_rest hr]
  rw [Host.refer, run_change_bind, run_retain (hw.of_rest hr) ho hk₁] at h
  cases h
  rfl

theorem sameRest_refl (w : World) : w.SameRest w := by constructor <;> rfl

/-- The host sends an object that it keeps by the number under which it keeps it. -/
theorem send_reference (hw : w.Sound) (ho : o.isHeap = true)
    (hk : w.host.resolve? id = some o) {i : ObjectId} {w' : World}
    (h : (Host.send o).run w = (.ok (.reference i), w')) : i = id := by
  have hrefer : ∀ {w₁ : World}, w.SameRest w₁ →
      (Host.refer o).run w₁ = (.ok (.reference i), w') → i = id :=
    fun hr => refer_reference hw ho hk hr
  have hintern : w.SameRest ((Change.intern truthName).run w).2 := Change.sameRest_run rfl w
  rw [Host.send, Proc.heap, run_query_bind] at h
  split at h
  · cases h
  · cases h
  · split at h
    · cases h
    · exact hrefer (sameRest_refl w) h
  · cases h
  · split at h
    · rw [Host.truth, run_change_bind] at h
      split at h
      · cases h
      · exact hrefer hintern h
    · exact hrefer (sameRest_refl w) h
  · -- a marker is told by its name, which the host interns first
    unfold Host.wrapped? at h
    split at h
    · rw [bind_assoc, run_change_bind, pure_bind] at h
      split at h
      · cases h
      · exact hrefer (Change.sameRest_run rfl w) h
    · rw [pure_bind] at h
      exact hrefer (sameRest_refl w) h
  · exact hrefer (sameRest_refl w) h

/-- An object that has a live handle comes over as this handle. -/
theorem arrivesAs (hw : w.Sound) (ho : o.isHeap = true) (hk : w.host.resolve? h.id = some o)
    (ht : w.border.Tracks h) (hh : h ∈ w.roots) : Border.ArrivesAs w o h where
  sent i w' hsend := send_reference hw ho hk hsend
  unpacked := by
    rw [Border.unpack, run_change_bind, run_adopt hw ht hh]
    rfl
  adopted := by
    rw [Border.adopt, run_change_bind, run_retain hw ho hk, ← bind_pure (Proc.change _),
      run_change_bind, run_adopt hw ht hh]
    rfl
  lookedUp name kind hname := by
    -- the name may have to be interned first, which leaves all numbers alone
    have hr : w.SameRest ((Change.intern name).run w).2 := Change.sameRest_run rfl w
    have hk₁ : ((Change.intern name).run w).2.host.resolve? h.id = some o := by
      rwa [resolve?_of_rest hr]
    have ht₁ : ((Change.intern name).run w).2.border.Tracks h := by
      rwa [Border.Tracks, hr.tracked]
    have hh₁ : h ∈ ((Change.intern name).run w).2.roots := by rwa [World.roots_of_rest hr]
    rw [Border.internNow, run_change_bind, run_change_bind, hname,
      run_retain (hw.of_rest hr) ho hk₁, run_change_bind, run_adopt (hw.of_rest hr) ht₁ hh₁]
    rfl

end Arrival

namespace Transcript

open Moment

/-- In every session, with sweeps anywhere, an object has one live handle: live
handles with one number are the same, those of heap objects are the same just if the
objects are, and an object that has a live handle comes over as this handle,
whichever way it comes, now or later. -/
theorem live_handles_unique (config : Config) (steps : List Step)
    {m : Moment (List (Except Failure Answer × List Answer))}
    (hm : Reaches (fun _ => True) (start config steps) m) :
    (∀ h ∈ m.world.roots, ∀ g ∈ m.world.roots, h.id = g.id →
      (Value.handle h).same (.handle g) = true) ∧
    (∀ h ∈ m.world.roots, ∀ g ∈ m.world.roots, ∀ o p,
      m.world.host.resolve? h.id = some o → m.world.host.resolve? g.id = some p →
      o.isHeap = true → p.isHeap = true →
      ((Value.handle h).same (.handle g) = true ↔ o.eq p = true)) ∧
    ∀ h ∈ m.world.roots, ∀ o, m.world.host.resolve? h.id = some o → o.isHeap = true →
      Border.ArrivesAs m.world o h ∧
      ∀ m₁, Reaches (fun _ => True) m m₁ → h ∈ m₁.world.roots →
        (Border.unpack (.reference h.id)).run m₁.world = (.ok (.handle h), m₁.world.hold [h]) := by
  have hlicensed : ∀ m : Moment (List (Except Failure Answer × List Answer)),
      True → m.Licensed .free := fun _ _ _ _ => ⟨trivial, nofun⟩
  have hinv := (start_alike config steps).reaches_self (reaches_mono hlicensed hm)
  have hsame : ∀ h ∈ m.world.roots, ∀ g ∈ m.world.roots, h.id = g.id → h = g :=
    fun h hh g hg hid =>
      Border.eq_of_tracks hinv.sound.border (hinv.tracks hh) (hinv.tracks hg) hid
  -- one live handle for a number, and one number for an object
  refine ⟨fun h hh g hg hid => ?_, fun h hh g hg o p ho hp hoheap hpheap => ?_,
    fun h hh o ho hoheap => ⟨?_, fun m₁ hm₁ hh₁ => ?_⟩⟩
  · rw [hsame h hh g hg hid]
    exact decide_eq_true rfl
  · rw [Obj.eq_iff_of_isHeap hpheap]
    constructor
    · intro heq
      obtain rfl : h = g := of_decide_eq_true heq
      exact Option.some.inj (ho.symm.trans hp)
    · rintro rfl
      -- an object is retained under one number
      have hid := Interpreter.eq_of_resolve? hinv.sound.host hoheap ho hp
      rw [hsame h hh g hg hid]
      exact decide_eq_true rfl
  · exact arrivesAs hinv.sound hoheap ho (hinv.tracks hh) hh
  · have hinv₁ := hinv.reaches_self (reaches_mono hlicensed hm₁)
    rw [Border.unpack, run_change_bind, run_adopt hinv₁.sound (hinv₁.tracks hh₁) hh₁]
    rfl

/-- A session that looks up two symbols. -/
def twoLookups : Moment (List (Except Failure Answer × List Answer)) :=
  start .standard [.mk (.lookup "car" .symbol false) (some "f") false,
    .mk (.lookup "cdr" .symbol false) (some "g") false]

/-- The two symbols have two handles, by which they arrive. -/
theorem live_handles_unique_lookups :
    ∃ o p, (twoLookups.after 46).world.host.resolve? ⟨1⟩ = some o ∧
      (twoLookups.after 46).world.host.resolve? ⟨2⟩ = some p ∧ o.eq p = false ∧
      Border.ArrivesAs (twoLookups.after 46).world o ⟨1, ⟨1⟩⟩ ∧
      Border.ArrivesAs (twoLookups.after 46).world p ⟨2, ⟨2⟩⟩ := by
  have hm : Reaches (fun _ => True) twoLookups (twoLookups.after 46) :=
    reaches_after fun _ _ => trivial
  obtain ⟨-, hsame, harrives⟩ := live_handles_unique .standard _ hm
  have hfacts : ⟨1, ⟨1⟩⟩ ∈ (twoLookups.after 46).world.roots ∧
      ⟨2, ⟨2⟩⟩ ∈ (twoLookups.after 46).world.roots ∧
      ((twoLookups.after 46).world.host.resolve? ⟨1⟩).map Obj.isHeap = some true ∧
      ((twoLookups.after 46).world.host.resolve? ⟨2⟩).map Obj.isHeap = some true := by
    rw [twoLookups, start_eq]
    decide +kernel
  obtain ⟨hf, hg, ho, hp⟩ := hfacts
  obtain ⟨o, ho, hoheap⟩ := Option.map_eq_some_iff.mp ho
  obtain ⟨p, hp, hpheap⟩ := Option.map_eq_some_iff.mp hp
  refine ⟨o, p, ho, hp, ?_, (harrives _ hf o ho hoheap).1, (harrives _ hg p hp hpheap).1⟩
  refine Bool.eq_false_iff.mpr fun heq => ?_
  exact absurd ((hsame _ hf _ hg o p ho hp hoheap hpheap).mpr heq) (by decide)

end Transcript

end Crossing
