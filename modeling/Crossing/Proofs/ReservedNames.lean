import Crossing.Proofs.Confinement
import Crossing.Proofs.Lookups
import Crossing.Proofs.Outcomes

/-!
# Reserved operations

A reserved operation cannot be called by its name, and no handle that was looked up
by this name can be called, whatever has happened since. A lookup notes the name
for the handle that it gives, and the name stays noted for as long as the handle is
tracked: a handle that got another name before is for an object of this other name,
so that the two names are one.

- `Proc.Refuses`: a procedure fails, and does nothing but ask before it does;
- `World.Notes`: a name is noted for a handle, wherever the handle is tracked;
- `Change.notes_run`, `Moment.Reaches.notes`: it stays noted;
- `Lookup.notes`: a lookup notes the name that it is for;
- `reserved_operations_are_refused`: calls by name, and by handle;
- `configured_names_take_effect_as_canonical`: which entries of a configuration do.
-/

namespace Crossing

variable {α β γ : Type} {w w₁ : World} {h : Handle} {name : String}

/-! ### Refusals -/

namespace Proc

/-- A procedure fails, and does nothing but ask before it does. -/
inductive Refuses (f : Failure) (w : World) : {α : Type} → Proc α → Prop where
  | fails {α : Type} : Refuses f w (fail f : Proc α)
  | ask {α β : Type} {q : Query β} {next : β → Proc α} (h : Refuses f w (next (q.ask w))) :
    Refuses f w (.ask q next)

variable {p : Proc α} {f : Failure}

/-- What follows a refusal has no part in it. -/
theorem Refuses.bind (hp : p.Refuses f w) (g : α → Proc β) : (p >>= g).Refuses f w := by
  induction hp with
  | fails => exact .fails
  | ask _ ih => exact .ask ih

end Proc

namespace Border

open Proc

/-- A reserved name is refused. -/
theorem refuses_refuseForbidden (hname : w.border.config.isForbidden name = true) :
    (refuseForbidden name).Refuses (.forbidden name) w := by
  refine .ask ?_
  show (if w.border.config.isForbidden name then fail (.forbidden name) else pure ()).Refuses _ w
  rw [if_pos hname]
  exact .fails

/-- A reserved operation is not called by its name. -/
theorem refuses_call (hname : w.border.config.isForbidden (canonicalName name) = true)
    (args : List Value) : (call name args).Refuses (.forbidden (canonicalName name)) w :=
  (refuses_refuseForbidden hname).bind _

/-- A handle for which the name of a reserved operation is noted is not called. -/
theorem refuses_funcall (hnoted : w.border.nameOf? h = some name)
    (hname : w.border.config.isForbidden name = true) (args : List Value) :
    (funcall h args).Refuses (.forbidden name) w := by
  have hrefuse : (refuseForbiddenHandle h).Refuses (.forbidden name) w := by
    refine .ask ?_
    simp only [Query.ask, hnoted]
    exact refuses_refuseForbidden hname
  exact hrefuse.bind _

end Border

/-! ### Names that are noted -/

namespace World

/-- A name is noted for a handle that has been given out, wherever the handle is
tracked. -/
structure Notes (w : World) (h : Handle) (name : String) : Prop where
  serial_le : h.serial ≤ w.border.lastSerial
  name_eq : ∀ t ∈ w.border.tracked, t.handle = h → t.name = some name

/-- A noted name is that of the handle. -/
theorem Notes.nameOf? (hn : w.Notes h name) (hw : w.Sound) (hh : w.border.Tracks h) :
    w.border.nameOf? h = some name := by
  obtain ⟨t, ht, rfl⟩ := hh
  rw [Border.nameOf?_of_mem hw.border ht]
  exact hn.name_eq t ht rfl

/-- What is noted is a matter of the tables. -/
theorem Notes.of_sameTables (hn : w.Notes h name) (hs : w.border.SameTables w₁.border) :
    w₁.Notes h name where
  serial_le := hs.lastSerial ▸ hn.serial_le
  name_eq := hs.tracked ▸ hn.name_eq

/-- A new handle is another one. -/
theorem Notes.makeHandle (hn : w.Notes h name) (hw : w.Sound) (id : ObjectId) :
    (w.makeHandle id).2.Notes h name where
  serial_le := Nat.le_succ_of_le hn.serial_le
  name_eq t ht heq := by
    rcases (Border.mem_track hw.border.ids).mp ht with rfl | ⟨ht, -⟩
    · have hle := hn.serial_le
      rw [← heq] at hle
      exact absurd hle (Nat.not_succ_le_self _)
    · exact hn.name_eq t ht heq

/-- What is noted stays so as references are taken in. -/
theorem Notes.adopt (hn : w.Notes h name) (hw : w.Sound) (id : ObjectId) :
    (w.adopt id).2.Notes h name := by
  unfold World.adopt
  split
  · split
    · exact hn.of_sameTables ⟨rfl, rfl, rfl, rfl⟩
    · exact hn.makeHandle hw id
  · exact hn.makeHandle hw id

/-- A name that is noted is not noted again. -/
theorem Notes.recordName (hn : w.Notes h name) (hw : w.Sound) (g : Handle) (n : String) :
    World.Notes { w with border := w.border.recordName g n } h name := by
  unfold Border.recordName
  split
  · rename_i t ht
    split
    · rename_i hnone
      refine ⟨hn.serial_le, fun u hu heq => ?_⟩
      rcases (Border.mem_track hw.border.ids).mp hu with rfl | ⟨hu, -⟩
      · have hname := hn.name_eq t ((Border.record?_iff hw.border).mp ht).1 heq
        rw [hnone.2] at hname
        cases hname
      · exact hn.name_eq u hu heq
    · exact hn
  · exact hn

/-- What is noted stays so through a sweep, or the handle is dead. -/
theorem Notes.sweep (hn : w.Notes h name) : w.sweep.2.Notes h name where
  serial_le := by
    rw [border_sweep]
    exact hn.serial_le
  name_eq t ht := by
    rw [border_sweep] at ht
    exact hn.name_eq t (List.mem_filter.mp ht).1

end World

/-- A name stays noted with every change. -/
theorem Change.notes_run (c : Change α) (hw : w.Sound) (hn : w.Notes h name) :
    (c.run w).2.Notes h name := by
  have hrevive : ∀ cached, (w.revive cached).2.Notes h name := fun cached => by
    obtain ⟨g, -, -, heq⟩ | heq := w.revive_cases cached
    · rw [heq]
      exact hn.of_sameTables ⟨rfl, rfl, rfl, rfl⟩
    · rw [heq]
      exact hn
  -- what is noted is a matter of the records, and these go only with the handle
  cases c with
  | adopt id => exact hn.adopt hw id
  | recordName g n => exact hn.recordName hw g n
  | sweep => exact hn.sweep
  | recallSymbol kind n => exact hrevive _
  | recallNumber key => exact hrevive _
  | register _ | wrap _ | unwrap? _ | recallVariable _ =>
    simp only [run]
    split
    · exact hn.of_sameTables ⟨rfl, rfl, rfl, rfl⟩
    · exact hn
  | _ => exact ⟨hn.serial_le, hn.name_eq⟩

namespace Moment

variable {m m₁ : Moment γ} {ok : Moment γ → Prop} {Z : γ → γ → Prop}

/-- Each step keeps what is noted. -/
theorem Goes.notes (hgo : Goes m m₁) (hw : m.world.Sound) (hn : m.world.Notes h name) :
    m₁.world.Notes h name := by
  cases hgo with
  | next hnext =>
    obtain heq | ⟨β, c, next, -, heq⟩ | ⟨s, u, hs⟩ | ⟨u, heq⟩ := world_cases hnext
    · rwa [heq]
    · rw [heq]
      exact Change.notes_run c hw hn
    · exact hn.of_sameTables (Scope.sameTables_enter hs)
    · rw [heq]
      exact hn.of_sameTables (u.sameTables_run _)
  | sweep _ => exact hn.sweep

/-- A name stays noted at all moments of a session. -/
theorem Alike.notes (hm : Alike .free Z m m) (hr : Reaches (Licensed .free) m m₁)
    (hn : m.world.Notes h name) : m₁.world.Notes h name := by
  induction hr with
  | refl => exact hn
  | tail hr hgo ih => exact hgo.2.notes (hm.reaches_self hr).sound ih

/-- The configuration is that of the start. -/
theorem Reaches.config (hr : Reaches ok m m₁) :
    m₁.world.border.config = m.world.border.config := by
  induction hr with
  | refl => rfl
  | @tail m m' _ hgo ih =>
    rw [← ih]
    cases hgo.2 with
    | next hnext =>
      obtain heq | ⟨β, c, next, -, heq⟩ | ⟨s, u, hs⟩ | ⟨u, heq⟩ := world_cases hnext
      · rw [heq]
      · rw [heq]
        exact (c.sameCounts_run _).config
      · exact (Scope.sameTables_enter hs).config
      · rw [heq]
        exact (u.sameTables_run _).config
    | sweep _ => exact m.world.sameCounts_sweep.config

end Moment

/-! ### Lookups note names -/

/-- An object has one name. -/
theorem Heap.Names.eq {h : Heap} {o : Obj} {n : String} (hname : h.Names o name)
    (hn : h.Names o n) : n = name := by
  obtain ⟨rfl, rfl⟩ | ⟨a, value, function, rfl, ha⟩ := hname
  · obtain ⟨rfl, -⟩ | ⟨_, _, _, heq, -⟩ := hn
    · rfl
    · cases heq
  · obtain ⟨-, heq⟩ | ⟨_, _, _, heq, ha'⟩ := hn
    · cases heq
    · cases heq
      rw [ha] at ha'
      cases ha'
      rfl

namespace Lookup

variable {l : Lookup γ} {Z : γ → γ → Prop}

/-- What is free may do anything. -/
theorem licensed_free (m : Moment γ) : m.Licensed .free := fun _ _ => ⟨trivial, nofun⟩

/-- A lookup notes the name that it is for. -/
theorem notes (hl : l.start.Alike .free Z l.start) : l.remembered.Notes l.handle l.name := by
  have hafter : ∀ n, (l.start.after n).Alike .free Z (l.start.after n) := fun n =>
    hl.reaches_self (Moment.reaches_after fun _ _ => licensed_free _)
  have hadopted := hafter 3
  have hfinish : l.finish.Alike .free Z l.finish := hafter 5
  have hw : l.adopted.Sound := hadopted.sound
  obtain ⟨t, ht, hhandle⟩ : l.adopted.border.Tracks l.handle :=
    hadopted.tracks l.mem_roots_adopted
  -- a name that was noted before is one of the object, which has no other
  have hsame : ∀ n, t.name = some n → n = l.name := by
    intro n hn
    obtain ⟨-, -, -, hf⟩ := hadopted
    obtain ⟨-, -, -, hf₀⟩ := hl
    have hpromise := hf.grounded.noted t ht n hn
    have hid : t.id = l.handle.id := congrArg Handle.id hhandle
    refine (l.names_object hf₀.grounded.interned).eq (hpromise.2 l.object ?_)
    rw [hid]
    exact l.resolve?_handle hf₀.left
  have hborder : l.remembered.border.tracked =
      (l.adopted.border.recordName l.handle l.name).tracked := rfl
  refine ⟨?_, fun u hu heq => ?_⟩
  · exact Border.serial_le_of_tracks hfinish.sound.border (hfinish.tracks l.mem_roots)
  · rw [hborder, ← hhandle, Border.recordName_of_mem hw.border ht] at hu
    split at hu
    · rcases (Border.mem_track hw.border.ids).mp hu with rfl | ⟨-, hne⟩
      · rfl
      · exact absurd (congrArg Handle.id (heq.trans hhandle.symm)) hne
    · rename_i hsome
      obtain ⟨n, hn⟩ := Option.ne_none_iff_exists'.mp hsome
      rw [Border.eq_of_id_eq hw.border.ids hu ht (congrArg Handle.id (heq.trans hhandle.symm)), hn,
        hsame n hn]

end Lookup

/-! ### Reserved operations -/

namespace Transcript

open Moment

variable {config : Config} {steps : List Step}
  {m m₁ : Moment (List (Except Failure Answer × List Answer))}

/-- A lookup in a session gives a handle for which the name is noted. -/
theorem exists_looksUp_notes {α : Type} {n : String} {kind : SymbolKind} {cached : Bool}
    {next : Handle → Proc α} {k : Stack (List (Except Failure Answer × List Answer)) α}
    (hm : Reaches (fun _ => True) (start config steps)
      ⟨Border.lookup n kind cached >>= next, k, w⟩) :
    ∃ h w₁, Border.LooksUp n kind cached w h w₁ ∧ w₁.Notes h (hostName n kind) := by
  let l : Lookup _ := ⟨hostName n kind, kind, next, k, w⟩
  have hw : w.Sound := (alike_of_reaches hm).sound
  obtain ⟨h, -, he, -, hlooks⟩ | ⟨hstart, hlooks⟩ := Border.looksUp_cases l rfl cached hw
  · obtain hinitial | ⟨l₀, hl₀, hfinish, hlater, heq⟩ :=
      hm.exists_lookup (orderly_start config steps) he
    · cases hinitial
    · -- what is remembered has been looked up before, and its name noted
      obtain ⟨hkey, rfl⟩ := Prod.mk.inj heq
      obtain ⟨-, hname⟩ := Prod.mk.inj hkey
      have hnotes := (alike_of_reaches hfinish).notes
        (reaches_mono (fun _ _ => Lookup.licensed_free _) hlater)
        (Lookup.notes (alike_of_reaches hl₀))
      rw [← hname] at hnotes
      exact ⟨l₀.handle, _, hlooks, hnotes.of_sameTables ⟨rfl, rfl, rfl, rfl⟩⟩
  · have hasked := hm.trans (reaches_of_passes hstart)
    exact ⟨l.handle, _, hlooks, Lookup.notes (alike_of_reaches hasked)⟩

/-- In every session, with sweeps anywhere: a reserved operation is not called by its
name, and a handle that a lookup gives for such a name is not called from then on,
whatever comes in between. Such a call asks for nothing but what is reserved and noted,
and changes nothing. -/
theorem reserved_operations_are_refused (config : Config) (steps : List Step)
    {m : Moment (List (Except Failure Answer × List Answer))}
    (hm : Reaches (fun _ => True) (start config steps) m) :
    (∀ n, config.isForbidden (canonicalName n) = true → ∀ args,
      (Border.call n args).Refuses (.forbidden (canonicalName n)) m.world) ∧
    ∀ n kind cached (next : Handle → Proc m.α), m.proc = Border.lookup n kind cached >>= next →
      config.isForbidden (hostName n kind) = true →
      ∃ h w₁, Border.LooksUp n kind cached m.world h w₁ ∧
        ∀ m₁, Reaches (fun _ => True) ⟨next h, m.stack, w₁⟩ m₁ → h ∈ m₁.world.roots →
          ∀ args, (Border.funcall h args).Refuses (.forbidden (hostName n kind)) m₁.world := by
  -- the configuration stays that of the session
  have hconfig : ∀ {m₁}, Reaches (fun _ => True) m m₁ → m₁.world.border.config = config :=
    fun hm₁ => Moment.Reaches.config (hm.trans hm₁)
  constructor
  · intro n hn args
    rw [← hconfig .refl] at hn
    exact Border.refuses_call hn args
  · intro n kind cached next hnext hn
    have hlookup : m = ⟨Border.lookup n kind cached >>= next, m.stack, m.world⟩ := by rw [← hnext]
    obtain ⟨h, w₁, hlooks, hnotes⟩ := exists_looksUp_notes (hlookup ▸ hm)
    -- the lookup is done whole before anything else happens
    have hm₀ : Reaches (fun _ => True) m ⟨next h, m.stack, w₁⟩ := by
      have hpasses := reaches_of_passes (hlooks.passes next m.stack)
      rwa [← hlookup] at hpasses
    refine ⟨h, w₁, hlooks, fun m₁ hm₁ hh args => ?_⟩
    have hfree := alike_of_reaches (hm.trans hm₀)
    have hfree₁ := alike_of_reaches (hm.trans (hm₀.trans hm₁))
    have hnotes₁ := hfree.notes (reaches_mono (fun _ _ => Lookup.licensed_free _) hm₁) hnotes
    rw [← hconfig (hm₀.trans hm₁)] at hn
    exact Border.refuses_funcall (hnotes₁.nameOf? hfree₁.sound (hfree₁.tracks hh)) hn args

/-- A session that looks up a reserved operation and sweeps. -/
def reservedSession : Moment (List (Except Failure Answer × List Answer)) :=
  start .standard [.mk (.lookup "eval_js" .symbol false) (some "f") false, .mk .sweep none false]

/-- The lookup of the session. -/
def reservedLookup : Lookup (List (Except Failure Answer × List Answer)) :=
  ⟨hostName "eval_js" .symbol, .symbol, fun h => pure (.value (.handle h)),
    (reservedSession.after 4).stack, (reservedSession.after 4).world⟩

/-- The operation is not called by its name, and not by its handle after the sweep. -/
theorem reserved_operations_are_refused_lookup :
    (Border.call "eval_js" []).Refuses (.forbidden "eval-js") reservedLookup.world ∧
    reservedLookup.handle ∈ (reservedLookup.finish.after 22).world.roots ∧
    (Border.funcall reservedLookup.handle []).Refuses (.forbidden "eval-js")
      (reservedLookup.finish.after 22).world := by
  have hm : Reaches (fun _ => True) reservedSession reservedLookup.start :=
    reaches_after (n := 4) fun _ _ => trivial
  have hcanonical : canonicalName "eval_js" = "eval-js" := by decide +kernel
  have hname : hostName "eval_js" .symbol = "eval-js" := hcanonical
  have hlive : reservedLookup.handle ∈ (reservedLookup.finish.after 22).world.roots := by
    unfold reservedLookup reservedSession start
    rw [World.initial_eq]
    decide +kernel
  obtain ⟨hcall, hlookup⟩ := reserved_operations_are_refused .standard _ hm
  obtain ⟨h, w₁, hlooks, hfuncall⟩ := hlookup "eval_js" .symbol false
    (fun h => pure (.value (.handle h))) rfl (by rw [hname]; rfl)
  -- a lookup gives one handle
  have hgiven : Border.LooksUp "eval_js" .symbol false reservedLookup.start.world
      reservedLookup.handle reservedLookup.remembered := 
    Border.looksUp_asking reservedLookup rfl fun h => absurd h Bool.false_ne_true
  obtain ⟨hh, rfl⟩ := Prod.mk.inj (hlooks.run.symm.trans hgiven.run)
  obtain rfl := Except.ok.inj hh
  refine ⟨hcanonical ▸ hcall "eval_js" (by rw [hcanonical]; rfl) [], hlive, ?_⟩
  rw [← hname]
  exact hfuncall _ (reaches_after fun _ _ => trivial) hlive []

end Transcript

/-! ### Configured names -/

/-- A name is canonical if it is spelled without underscores. -/
theorem canonicalName_eq_self_iff {n : String} : canonicalName n = n ↔ '_' ∉ n.toList := by
  rw [← String.toList_inj, canonicalName, String.toList_map]
  constructor
  · intro h hmem
    rw [← h] at hmem
    obtain ⟨c, -, hc⟩ := List.mem_map.mp hmem
    split_ifs at hc with hdash
    · exact absurd hc (by decide)
    · exact hdash hc
  · intro h
    refine (List.map_congr_left fun c hc => if_neg ?_).trans (List.map_id' _)
    rintro rfl
    exact h hc

namespace Border

open Proc

/-- What is done in a scope is no refusal. -/
theorem not_refuses_keeping [Holds α] {f : Failure} (p : Proc α) : ¬(keeping p).Refuses f w :=
  fun h => nomatch (h : Proc.Refuses f w (.inside _ p _))

/-- What comes after the check of a name is kept from being done if the name is reserved, and
only then. -/
theorem refuses_refuseForbidden_bind_iff {p : Proc α}
    (hp : ¬p.Refuses (.forbidden name) w) :
    (refuseForbidden name >>= fun _ => p).Refuses (.forbidden name) w ↔
      w.border.config.isForbidden name = true := by
  refine ⟨fun h => ?_, fun h => (refuses_refuseForbidden h).bind _⟩
  by_contra hallowed
  cases h with
  | ask h =>
    have hrest : ((if w.border.config.isForbidden name then fail (.forbidden name)
        else pure ()) >>= fun _ => p).Refuses (.forbidden name) w := h
    rw [if_neg hallowed] at hrest
    exact hp hrest

/-- A call is refused for its name if that is reserved, and only then. -/
theorem refuses_call_iff {args : List Value} :
    (call name args).Refuses (.forbidden (canonicalName name)) w ↔
      w.border.config.isForbidden (canonicalName name) = true :=
  refuses_refuseForbidden_bind_iff (not_refuses_keeping _)

/-- A call of a handle is refused for the name that is noted if that is reserved, and only
then. -/
theorem refuses_funcall_iff (hnoted : w.border.nameOf? h = some name) {args : List Value} :
    (funcall h args).Refuses (.forbidden name) w ↔
      w.border.config.isForbidden name = true := by
  refine ⟨fun hr => ?_, fun hname => refuses_funcall hnoted hname args⟩
  cases hr with
  | ask hr =>
    simp only [Query.ask, hnoted] at hr
    exact (refuses_refuseForbidden_bind_iff (not_refuses_keeping _)).mp hr

end Border

namespace Transcript

open Moment

variable {m : Moment (List (Except Failure Answer × List Answer))}

/-- What a name of the configuration does, in every session, with sweeps anywhere. A name is
compared in its canonical spelling: calls by the name, and calls of the handles that a lookup
gives for it, are refused if and only if this spelling is configured. So an entry without
underscores takes effect, and one with underscores does not, unless the entry that is spelled
with dashes is there too. -/
theorem configured_names_take_effect_as_canonical (config : Config) (steps : List Step)
    (hm : Reaches (fun _ => True) (start config steps) m) {f : String}
    (hf : f ∈ config.forbidden) :
    ('_' ∉ f.toList → canonicalName f = f ∧ canonicalName f ∈ config.forbidden) ∧
    ('_' ∈ f.toList → canonicalName f ≠ f) ∧
    (∀ args, (Border.call f args).Refuses (.forbidden (canonicalName f)) m.world ↔
      canonicalName f ∈ config.forbidden) ∧
    ∀ cached (next : Handle → Proc m.α), m.proc = Border.lookup f .symbol cached >>= next →
      ∃ h w₁, Border.LooksUp f .symbol cached m.world h w₁ ∧
        ∀ m₁, Reaches (fun _ => True) ⟨next h, m.stack, w₁⟩ m₁ → h ∈ m₁.world.roots →
          ∀ args, (Border.funcall h args).Refuses (.forbidden (canonicalName f)) m₁.world ↔
            canonicalName f ∈ config.forbidden := by
  have hconfig : ∀ {m₁}, Reaches (fun _ => True) m m₁ →
      (m₁.world.border.config.isForbidden (canonicalName f) = true ↔
        canonicalName f ∈ config.forbidden) := fun hm₁ => by
    rw [Moment.Reaches.config (hm.trans hm₁)]
    exact List.contains_iff_mem
  -- the canonical name is what is looked up, and the entry is compared as it is written
  refine ⟨fun hdash => ?_, fun hunderscore heq => ?_, fun args => ?_, fun cached next hnext => ?_⟩
  · have hself := canonicalName_eq_self_iff.mpr hdash
    exact ⟨hself, by rwa [hself]⟩
  · exact canonicalName_eq_self_iff.mp heq hunderscore
  · exact Border.refuses_call_iff.trans (hconfig .refl)
  · have hlookup : m = ⟨Border.lookup f .symbol cached >>= next, m.stack, m.world⟩ := by
      rw [← hnext]
    obtain ⟨h, w₁, hlooks, hnotes⟩ := exists_looksUp_notes (hlookup ▸ hm)
    have hm₀ : Reaches (fun _ => True) m ⟨next h, m.stack, w₁⟩ := by
      have hpasses := reaches_of_passes (hlooks.passes next m.stack)
      rwa [← hlookup] at hpasses
    refine ⟨h, w₁, hlooks, fun m₁ hm₁ hh args => ?_⟩
    have hfree := alike_of_reaches (hm.trans hm₀)
    have hfree₁ := alike_of_reaches (hm.trans (hm₀.trans hm₁))
    have hnotes₁ := hfree.notes (reaches_mono (fun _ _ => Lookup.licensed_free _) hm₁) hnotes
    exact (Border.refuses_funcall_iff (hnotes₁.nameOf? hfree₁.sound (hfree₁.tracks hh))).trans
      (hconfig (hm₀.trans hm₁))

/-- A configuration with an entry that is spelled with dashes and one that is not. -/
def mixedConfig : Config :=
  { Config.standard with forbidden := ["kill-buffer", "buffer_name"] }

/-- A session that looks up an operation as its configuration spells it, and sweeps. -/
def underscoredSession : Moment (List (Except Failure Answer × List Answer)) :=
  start mixedConfig [.mk (.lookup "buffer_name" .symbol false) (some "f") false,
    .mk .sweep none false]

/-- The lookup of the session. -/
def underscoredLookup : Lookup (List (Except Failure Answer × List Answer)) :=
  ⟨hostName "buffer_name" .symbol, .symbol, fun h => pure (.value (.handle h)),
    (underscoredSession.after 4).stack, (underscoredSession.after 4).world⟩

/-- The entry with dashes takes effect. The one with an underscore does not, neither for its
name nor for the handle after the sweep. -/
theorem configured_names_take_effect_as_canonical_mixed :
    "kill-buffer" ∈ mixedConfig.forbidden ∧ "buffer_name" ∈ mixedConfig.forbidden ∧
    (Border.call "kill-buffer" []).Refuses (.forbidden "kill-buffer") underscoredLookup.world ∧
    ¬(Border.call "buffer_name" []).Refuses (.forbidden "buffer-name") underscoredLookup.world ∧
    underscoredLookup.handle ∈ (underscoredLookup.finish.after 22).world.roots ∧
    ¬(Border.funcall underscoredLookup.handle []).Refuses (.forbidden "buffer-name")
      (underscoredLookup.finish.after 22).world := by
  have hm : Reaches (fun _ => True) underscoredSession underscoredLookup.start :=
    reaches_after (n := 4) fun _ _ => trivial
  have hdashed : canonicalName "kill-buffer" = "kill-buffer" := by decide +kernel
  have hcanonical : canonicalName "buffer_name" = "buffer-name" := by decide +kernel
  have hlive : underscoredLookup.handle ∈ (underscoredLookup.finish.after 22).world.roots := by
    unfold underscoredLookup underscoredSession start
    rw [World.initial_eq]
    decide +kernel
  have hkill : "kill-buffer" ∈ mixedConfig.forbidden := by decide
  have hname : "buffer_name" ∈ mixedConfig.forbidden := by decide
  have habsent : canonicalName "buffer_name" ∉ mixedConfig.forbidden := by
    rw [hcanonical]; decide
  obtain ⟨hin, -, hcall, -⟩ := configured_names_take_effect_as_canonical mixedConfig _ hm hkill
  obtain ⟨-, -, hcall₁, hlookup⟩ :=
    configured_names_take_effect_as_canonical mixedConfig _ hm hname
  obtain ⟨h, w₁, hlooks, hfuncall⟩ := hlookup false (fun h => pure (.value (.handle h))) rfl
  -- a lookup gives one handle
  have hgiven : Border.LooksUp "buffer_name" .symbol false underscoredLookup.start.world
      underscoredLookup.handle underscoredLookup.remembered :=
    Border.looksUp_asking underscoredLookup rfl fun h => absurd h Bool.false_ne_true
  obtain ⟨hh, rfl⟩ := Prod.mk.inj (hlooks.run.symm.trans hgiven.run)
  obtain rfl := Except.ok.inj hh
  have hrefused := (hcall []).mpr (hin (by decide)).2
  rw [hdashed] at hrefused
  rw [hcanonical] at hcall₁ hfuncall habsent
  exact ⟨hkill, hname, hrefused, fun h => habsent ((hcall₁ []).mp h), hlive,
    fun h => habsent ((hfuncall _ (reaches_after fun _ _ => trivial) hlive []).mp h)⟩

end Transcript

/-- The text that a step comes to as a script value. -/
def StepReport.valueText? (r : StepReport) : Option String :=
  match r.result with
  | .ok (.value (.text s)) => some s
  | _ => none

/-- A session that calls an operation by its name, and by the handle that it looks up. -/
def underscoredCalls : List Step := [
  .mk (.call "buffer_name" []) none false,
  .mk (.lookup "buffer_name" .symbol false) (some "f") false,
  .mk (.funcall (.variable "f") []) none false]

/-- Both calls take place though the name is configured just as it is called. -/
theorem Transcript.underscored_entry_is_called :
    (Transcript.ofSteps { Config.standard with forbidden := ["buffer_name"] }
      underscoredCalls).map StepReport.valueText? = [some "*scratch*", none, some "*scratch*"] := by
  rw [ofSteps_eq]
  decide +kernel

end Crossing
