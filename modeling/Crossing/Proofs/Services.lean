import Crossing.Proofs.BufferCalls
import Crossing.Proofs.Literals
import Crossing.Proofs.Returns
import Crossing.Proofs.Successes

/-!
# Services of the host

Calls of host functions that succeed. The name of a builtin stands for the builtin, all
arguments cross, and what the builtin gives arrives.

- `World.Offers`: the name of a builtin stands for it and is not reserved;
- `Border.succeeds_lookup`, `Border.succeeds_symbol`: names are looked up;
- `World.StandsFor`: an object is what the host makes of a script value;
- `World.Crosses`: a value is packed, and the host takes in what it stands for;
- `World.CrossesUnless`: so it is unless packing it fails;
- `Border.HandsOver`: what the host sends of an object, and script code takes in;
- `Border.ends_call`, `Border.succeeds_call`: calls of builtins that are offered;
- `Border.succeeds_list`: the host makes a list of what values stand for.
-/

namespace Crossing

open Proc

variable {α β : Type} {w w₁ w₂ : World} {v : Value} {o : Obj} {j : Json} {name : String}

/-! ### Builtins that are offered -/

/-- The name of a builtin stands for a symbol that has the builtin as its function. No other
symbol has the name, and the name is not reserved. -/
structure World.Offers (w : World) (b : Builtin) : Prop where
  function : ∃ a value f, w.host.find? b.name = some a ∧
    w.host.heap.get? a = some (.symbol b.name value (some (.ref f))) ∧
    w.host.heap.get? f = some (.builtin b)
  sole : w.host.IsSole b.name
  allowed : w.border.config.isForbidden b.name = false

/-- Whether the name of a builtin stands for it. -/
def World.offersBuiltin (w : World) (b : Builtin) : Bool :=
  match w.host.find? b.name with
  | some a => match w.host.heap.get? a with
    | some (.symbol name _ (some (.ref f))) =>
      name = b.name && decide (w.host.heap.get? f = some (.builtin b))
    | _ => false
  | none => false

/-- Whether the host offers a function can be found out. -/
theorem World.offers_iff {b : Builtin} : w.Offers b ↔ w.offersBuiltin b = true ∧
    w.host.IsSole b.name ∧ w.border.config.isForbidden b.name = false := by
  constructor
  · rintro ⟨⟨a, value, f, hfind, ha, hf⟩, hsole, hallowed⟩
    exact ⟨by simp [offersBuiltin, hfind, ha, hf], hsole, hallowed⟩
  · rintro ⟨h, hsole, hallowed⟩
    refine ⟨?_, hsole, hallowed⟩
    unfold offersBuiltin at h
    split at h
    · rename_i a hfind
      split at h
      · rename_i name value f ha
        obtain ⟨hname, hf⟩ := (Bool.and_eq_true _ _).mp h
        obtain rfl := of_decide_eq_true hname
        exact ⟨a, value, f, hfind, ha, of_decide_eq_true hf⟩
      · cases h
    · cases h

instance (w : World) (b : Builtin) : Decidable (w.Offers b) := decidable_of_iff' _ World.offers_iff

/-- What sustains a world offers its functions. -/
theorem World.Sustains.offers {b : Builtin} (hs : w.Sustains w₁) (h : w.Offers b) :
    w₁.Offers b where
  function := by
    obtain ⟨a, value, f, hfind, ha, hf⟩ := h.function
    exact ⟨a, value, f, hs.grown.host.names hfind, hs.grown.host.heap.cell ha,
      hs.grown.host.heap.cell hf⟩
  sole := hs.sole h.sole
  allowed := by rw [hs.config, h.allowed]

/-! ### Looking up -/

namespace Border

theorem isAdditive_refuseForbidden (name : String) : (refuseForbidden name).IsAdditive := by
  refine (isAdditive_query .config).bind fun config => ?_
  split
  · exact isAdditive_fail _
  · exact isAdditive_pure _

theorem isAdditive_refuseForbiddenHandle (h : Handle) :
    (refuseForbiddenHandle h).IsAdditive := by
  refine (isAdditive_query (.nameOf? h)).bind fun r => ?_
  cases r with
  | some name => exact isAdditive_refuseForbidden name
  | none => exact isAdditive_pure _

theorem isAdditive_internNow (name : String) (kind : SymbolKind) :
    (internNow name kind).IsAdditive :=
  (isAdditive_change rfl).bind fun _ => (isAdditive_change rfl).bind fun _ =>
    (isAdditive_change rfl).bind fun _ => (isAdditive_change rfl).bind fun _ =>
      (isAdditive_change rfl).bind fun _ => isAdditive_pure _

theorem isAdditive_lookup (name : String) (kind : SymbolKind) (cached : Bool) :
    (lookup name kind cached).IsAdditive := by
  unfold lookup
  split
  · refine .bind (isAdditive_change rfl) fun r => ?_
    cases r with
    | some h => exact isAdditive_pure h
    | none => exact isAdditive_internNow _ _
  · exact isAdditive_internNow _ _

/-- A symbol that is interned anew is kept, and its handle is held. -/
theorem succeeds_internNow (name : String) (kind : SymbolKind) :
    (internNow name kind).Succeeds w fun h w₁ => (∃ o, w₁.host.resolve? h.id = some o) ∧
      h ∈ w₁.script.held ∧ w.script.held <:+ w₁.script.held := by
  refine (succeeds_change (c := .intern name) rfl).bind fun o w₁ _ h₁ => ?_
  refine ((succeeds_change (c := .retain o) rfl).and_adds (adds_retain o)).bind
    fun id w₂ _ h₂ => ?_
  -- the object is retained before the handle is made, so that no sweep can come between
  refine (succeeds_change (c := .adopt id) rfl).bind fun h w₃ _ h₃ => ?_
  refine (succeeds_change (c := .recordName h name) rfl).bind fun _ w₄ hs₄ h₄ => ?_
  refine (succeeds_change (c := .cacheSymbol kind name h) rfl).bind fun _ w₅ hs₅ h₅ => ?_
  obtain ⟨-, rfl⟩ := h₁
  obtain ⟨⟨-, rfl⟩, hid, -⟩ := h₂
  obtain ⟨rfl, rfl⟩ := h₃
  obtain ⟨-, rfl⟩ := h₄
  obtain ⟨-, rfl⟩ := h₅
  refine succeeds_pure ⟨⟨o, ?_⟩, ?_, ?_⟩
  · refine hs₅.grown.host.kept (hs₄.grown.host.kept ?_)
    change (World.adopt _ id).2.host.resolve? (World.adopt _ id).1.id = some o
    rw [World.host_adopt, World.id_adopt]
    exact hid
  · exact ((Change.held_run _ _).trans (Change.held_run _ _)).subset (World.mem_held_adopt _ id)
  · exact (Change.held_run (.intern name) w).trans ((Change.held_run _ _).trans
      ((Change.held_run _ _).trans ((Change.held_run _ _).trans (Change.held_run _ _))))

/-- A name that is looked up, from memory if it is there, has a handle, which is held. -/
theorem succeeds_lookup (name : String) (kind : SymbolKind) :
    (lookup name kind true).Succeeds w fun h w₁ => (∃ o, w₁.host.resolve? h.id = some o ∧
      w₁.host.heap.Names o (hostName name kind)) ∧ h ∈ w₁.script.held ∧
        w.script.held <:+ w₁.script.held := by
  have hlookup : (lookup name kind true).Succeeds w fun h w₁ =>
      (∃ o, w₁.host.resolve? h.id = some o) ∧ h ∈ w₁.script.held ∧
        w.script.held <:+ w₁.script.held := by
    simp only [lookup, if_true]
    intro hdue
    have hsteady := hdue.steady
    revert hdue
    refine (succeeds_change (c := .recallSymbol kind (hostName name kind)) rfl).bind
      fun r w₁ _ h₁ => ?_
    -- the cached handle is live and revived, or the symbol is looked up anew
    obtain ⟨h, -, hlive, heq⟩ | heq := w.revive_cases
      ((w.border.symbolCache.find? fun e => e.1 == (kind, hostName name kind)).map Prod.snd)
    · have hrecall : (Change.recallSymbol kind (hostName name kind)).run w =
          (some h, w.hold [h]) := heq
      rw [hrecall] at h₁
      obtain ⟨rfl, rfl⟩ := h₁
      exact succeeds_pure ⟨hsteady.resolves hlive, List.mem_cons_self, w.held_hold [h]⟩
    · have hrecall : (Change.recallSymbol kind (hostName name kind)).run w = (none, w) := heq
      rw [hrecall] at h₁
      obtain ⟨rfl, rfl⟩ := h₁
      exact succeeds_internNow _ kind
  refine (hlookup.and_adds (adds_lookup name kind true)).mono fun h w₁ _ hh => ?_
  obtain ⟨⟨⟨o, ho⟩, hheld⟩, hnamed⟩ := hh
  exact ⟨⟨o, ho, hnamed.2 o ho⟩, hheld⟩

/-- So has the symbol of a name. -/
theorem succeeds_symbol (hname : hostName name .symbol = name) :
    (symbol name).Succeeds w fun h w₁ => (∃ o, w₁.host.resolve? h.id = some o ∧
      w₁.host.heap.Names o name) ∧ h ∈ w₁.script.held ∧ w.script.held <:+ w₁.script.held := by
  have hlookup := succeeds_lookup (w := w) name .symbol
  rwa [hname] at hlookup

end Border

/-! ### What values stand for -/

/-- What grows spares what was there. -/
theorem World.GrowsTo.spares (hg : w.GrowsTo w₁) : w.host.Spares w₁.host :=
  ⟨hg.host.heap.cell, hg.host.heap.cell, hg.host.heap.cell, hg.host.names⟩

namespace World

/-- An object is what the host makes of plain data: it embodies what their text reads as. -/
def EmbodiesData (w : World) (v : Value) (o : Obj) : Prop :=
  ∃ j k, v.toJson = .ok j ∧ Json.parse j.render = .ok k ∧ w.host.Embodies w.host.heap.size k o

/-- What embodies data does so for as long as nothing writes to it. -/
theorem EmbodiesData.of_spares (h : w.EmbodiesData v o) (hs : w.host.Spares w₁.host)
    (hle : w.host.heap.size ≤ w₁.host.heap.size) : w₁.EmbodiesData v o := by
  obtain ⟨j, k, hj, hparse, ho⟩ := h
  exact ⟨j, k, hj, hparse, ho.of_spares hs hle⟩

/-- An object is what a script value stands for in the host: that which a handle is for, a
closure that calls a function, and for plain data what the host makes of them. -/
def StandsFor (w : World) : Value → Obj → Prop
  | .handle h, o => w.host.resolve? h.id = some o
  | .function c, o => ∃ f a, o = .ref a ∧ w.HasClosure c f a
  | v, o => w.Shows v o ∧ w.EmbodiesData v o

/-- Data stand for what shows and embodies them. -/
theorem standsFor_data (hj : v.toJson = .ok j) :
    w.StandsFor v o ↔ w.Shows v o ∧ w.EmbodiesData v o := by
  cases v with
  | handle _ | function _ => cases hj
  | _ => exact Iff.rfl

theorem lasting_standsFor (v : Value) (o : Obj) : Lasting fun w => w.StandsFor v o := by
  refine ⟨fun {w w₁} hg h => ?_⟩
  cases v with
  | handle g => exact hg.host.kept h
  | function c =>
    obtain ⟨f, a, rfl, hclosure⟩ := h
    exact ⟨f, a, rfl, (lasting_hasClosure c f a).grows hg hclosure⟩
  | _ => exact ⟨(lasting_shows _ o).grows hg h.1, h.2.of_spares hg.spares hg.host.heap.size_le⟩

/-- From now on a value is packed, and the host takes in what it stands for. -/
def Crosses (w : World) (v : Value) : Prop :=
  ∀ w₁, w.Sustains w₁ → (Border.pack v).Succeeds w₁ fun r w₂ => ∀ w₃, w₂.Sustains w₃ →
    (Host.receive r.1).Succeeds w₃ fun o w₄ => w₄.StandsFor v o

theorem Sustains.crosses (hs : w.Sustains w₁) (h : w.Crosses v) : w₁.Crosses v :=
  fun w₂ hs₂ => h w₂ (hs.trans hs₂)

/-- So it is unless packing the value fails as `E` says. -/
def CrossesUnless (E : Failure → Prop) (w : World) (v : Value) : Prop :=
  ∀ w₁, w.Sustains w₁ → (Border.pack v).SucceedsUnless E w₁ fun r w₂ => ∀ w₃, w₂.Sustains w₃ →
    (Host.receive r.1).Succeeds w₃ fun o w₄ => w₄.StandsFor v o

theorem Crosses.unless {E : Failure → Prop} (h : w.Crosses v) : w.CrossesUnless E v :=
  fun w₁ hs => (h w₁ hs).unless

/-- What crosses but for some failures does so as the world goes on. -/
theorem Sustains.crossesUnless {E : Failure → Prop} (hs : w.Sustains w₁)
    (h : w.CrossesUnless E v) : w₁.CrossesUnless E v :=
  fun w₂ hs₂ => h w₂ (hs.trans hs₂)

end World

namespace Proc

/-- What a procedure builds, it comes to in any session. -/
theorem Builds.attains {p : Proc α} {Q : α → World → Prop} (hb : p.Builds w Q)
    (hp : p.IsAdditive) : p.Attains w Q := by
  obtain ⟨a, w₁, hgives, -, hQ⟩ := hb
  refine (hp.attains hgives).mono fun a' w₂ _ h => ?_
  obtain ⟨rfl, rfl⟩ := h
  exact hQ

/-- What builds an object succeeds. -/
theorem Builds.succeeds {p : Proc α} {Q : α → World → Prop} (hb : p.Builds w Q)
    (hp : p.IsAdditive) : p.Succeeds w Q := (hb.attains hp).succeeds

end Proc

/-- A number embodies what it reads as. -/
theorem Interpreter.embodies_of_number? {i : Interpreter} {below : Nat} {d : Json}
    (h : d.number? = some o) : i.Embodies below d o := by
  cases d with
  | int n =>
    cases h
    unfold Embodies Obj.ofInt
    cases Fixnum.ofInt? n <;> rfl
  | float x _ =>
    cases h
    rfl
  | _ => cases h

namespace World

/-- A handle crosses as what it is for. -/
theorem crosses_handle {h : Handle} (ho : w.host.resolve? h.id = some o) :
    w.Crosses (.handle h) := by
  intro w₁ hs₁
  refine succeeds_pure fun w₃ hs₃ => ?_
  have ho₃ := hs₃.grown.host.kept (hs₁.grown.host.kept ho)
  exact ((Border.builds_reference ho₃).succeeds (Host.isAdditive_receive _)).mono
    fun o' w₄ _ h => by
      obtain ⟨rfl, rfl⟩ := h
      exact ho₃

/-- Plain data cross. -/
theorem crosses_data (hj : v.toJson = .ok j) (hnul : j.isNulFree = true)
    (hdatum : j.isDatum = true) (hnest : j.nesting < Json.maxNesting) : w.Crosses v := by
  obtain ⟨k, hparse⟩ := Json.exists_parse_render hdatum hnest
  have hfunction : ∀ c, v ≠ .function c := by
    rintro c rfl
    cases hj
  have hreceive : ∀ w₃ : World, (Host.receive (.data j.render)).Succeeds w₃
      fun o w₄ => w₄.StandsFor v o := by
    intro w₃
    obtain ⟨o, w₄, hgives, hb, ho⟩ := Host.builds_embodied k w₃
    have hbuilds : (Host.receive (.data j.render)).Builds w₃ fun o w₄ => w₄.EmbodiesData v o :=
      ⟨o, w₄, (Host.gives_readDatum hparse w₃).bind hgives, hb, j, k, hj, hparse, ho⟩
    refine ((hbuilds.succeeds (Host.isAdditive_receive _)).and_adds
      (Host.brings_data hj w₃ w₃ (.refl w₃))).mono fun o w₄ _ h => ?_
    exact (standsFor_data hj).mpr ⟨h.2, h.1⟩
  intro w₁ _
  have hpacked : (Border.pack v).Gives 0 w₁ (.ok (.data j.render, [])) w₁ →
      (Border.pack v).Succeeds w₁ fun r w₂ => ∀ w₃, w₂.Sustains w₃ →
        (Host.receive r.1).Succeeds w₃ fun o w₄ => w₄.StandsFor v o := by
    refine fun hgives => ((Border.isAdditive_pack hfunction).succeeds fun _ => hgives).mono
      fun r w₂ _ h w₃ _ => ?_
    obtain ⟨rfl, -⟩ := h
    exact hreceive w₃
  cases hkey : v.numberKey? with
  | none => exact hpacked (Border.gives_pack_data hj hnul (.inl hkey))
  | some key =>
    by_cases hcache : w₁.border.config.cacheNumbers = true
    · -- a number crosses by reference to what its text reads as
      obtain ⟨o, hnumber, hshows⟩ := Value.exists_number hkey hj hparse
      have htext : j.toText = .ok j.render := if_pos hnul
      intro hdue
      obtain ⟨h, w₂, hpacks⟩ :=
        Border.exists_packsAlike hdue.steady hcache hkey hj htext hparse hnumber
      revert hdue
      refine ((Border.isAdditive_pack hfunction).succeeds fun _ => hpacks.packed).mono
        fun r w₂ _ hr w₃ hs₃ => ?_
      obtain ⟨rfl, rfl, -⟩ := hr
      have ho₃ := hs₃.grown.host.kept hpacks.kept
      refine ((Border.builds_reference ho₃).succeeds (Host.isAdditive_receive _)).mono
        fun o' w₄ _ h => ?_
      obtain ⟨rfl, rfl⟩ := h
      exact (standsFor_data hj).mpr
        ⟨hshows _, j, k, hj, hparse, Interpreter.embodies_of_number? hnumber⟩
    · exact hpacked (Border.gives_pack_data hj hnul (.inr (Bool.eq_false_iff.mpr hcache)))

end World

namespace Border

/-- Values that cross are packed as parcels that are received as what they stand for. The
induction is on the values. -/
theorem succeedsUnless_packAll {E : Failure → Prop} {vs : List Value}
    (hvs : ∀ v ∈ vs, w.CrossesUnless E v) :
    (packAll vs).SucceedsUnless E w fun ps w₁ => List.Forall₂ (fun v p => ∀ w₂, w₁.Sustains w₂ →
      (Host.receive p).Succeeds w₂ fun o w₃ => w₃.StandsFor v o) vs ps := by
  refine succeedsUnless_mapM (R := fun v p w₁ => ∀ w₂, w₁.Sustains w₂ →
    (Host.receive p).Succeeds w₂ fun o w₃ => w₃.StandsFor v o)
      (fun v p _ _ hs h w₂ hs₂ => h w₂ (hs.trans hs₂)) ?_
  refine List.forall₂_same.mpr fun v hv w₁ hs => (hvs v hv w₁ hs).bind fun r _ _ hr => ?_
  exact succeedsUnless_pure hr

end Border

/-- Parcels that are received one by one are received together. The induction is on the
parcels. -/
theorem Host.succeeds_receiveAll {vs : List Value} {ps : List Parcel}
    (h : List.Forall₂ (fun v p => ∀ w₁, w.Sustains w₁ →
      (receive p).Succeeds w₁ fun o w₂ => w₂.StandsFor v o) vs ps) :
    (receiveAll ps).Succeeds w fun os w₁ => List.Forall₂ (fun v o => w₁.StandsFor v o) vs os :=
  succeeds_mapM (fun v o _ _ hs => (World.lasting_standsFor v o).grows hs.grown) h

/-! ### Applying builtins -/

/-- Applying the symbol of a builtin is running the builtin. -/
theorem Host.ends_apply_builtin {b : Builtin} {a f : Addr} {value : Option Obj} {os : List Obj}
    {R : Except Failure Obj → World → Prop}
    (ha : w.host.heap.get? a = some (.symbol name value (some (.ref f))))
    (hf : w.host.heap.get? f = some (.builtin b)) (hrun : (b.run os).Ends w R) :
    (apply (.ref a) os).Ends w R := by
  refine ends_perform rfl ((succeeds_query .heap).ends_bind fun h w₁ _ heq => ?_)
  obtain ⟨rfl, rfl⟩ := heq
  simp only [Query.ask, Heap.shape_ref ha]
  refine Succeeds.ends_bind (S := fun g w₂ => g = .ref f ∧ w₂ = w₁) ?_ fun g w₂ _ heq => ?_
  · refine (succeeds_query .heap).bind fun h w₂ _ heq => ?_
    obtain ⟨rfl, rfl⟩ := heq
    simp only [Query.ask, Heap.shape_ref ha]
    exact succeeds_pure ⟨rfl, rfl⟩
  obtain ⟨rfl, rfl⟩ := heq
  refine (succeeds_query .heap).ends_bind fun h w₃ _ heq => ?_
  obtain ⟨rfl, rfl⟩ := heq
  simp only [Query.ask, Heap.shape_ref hf]
  exact hrun

/-! ### Calls -/

namespace Border

variable {Q : Except Failure Value → World → Prop} {R : Except Failure Obj → World → Prop}
  {E : Failure → Prop}

/-- What holds however the world is sustained, holds at the end of what is held inside, and
the handles in a result are held there. -/
theorem ends_keeping_sustained [Holds α] {p : Proc α} {Q : Except Failure α → World → Prop}
    (hQ : ∀ r w w₁, w.Sustains w₁ → Q r w → Q r w₁) (hp : p.Ends w Q) :
    (keeping p).Ends w fun r w₁ =>
      Q r w₁ ∧ ∀ a, r = .ok a → ∀ h ∈ Holds.handles a, h ∈ w₁.script.held := by
  refine ends_keeping (hp.mono fun r w₁ hr => ⟨?_, fun a ha h hh => ?_⟩)
  · exact hQ r w₁ _ (.of_host (.of_host (.refl w₁.host) rfl rfl) rfl rfl) hr
  · subst ha
    exact List.mem_append_left _ hh

/-- A call of a function that script code has a handle of comes to what comes of applying it:
`R` says what this gives, `Q` what arrives of it. -/
theorem ends_funcall {function : Handle} {vs : List Value} {a : Addr} {value fn : Option Obj}
    (hf : w.host.resolve? function.id = some (.ref a))
    (ha : w.host.heap.get? a = some (.symbol name value fn))
    (hallowed : w.border.config.isForbidden name = false)
    (hvs : ∀ v ∈ vs, w.CrossesUnless E v) (hE : ∀ e w₁, w.Sustains w₁ → E e → Q (.error e) w₁)
    (hQ : ∀ r w w₁, w.Sustains w₁ → Q r w → Q r w₁)
    (happly : ∀ os w₁, w.Sustains w₁ → List.Forall₂ (fun v o => w₁.StandsFor v o) vs os →
      (Host.apply (.ref a) os).Ends w₁ R)
    (herror : ∀ e w₁, R (.error e) w₁ → Q (.error e) w₁)
    (hsend : ∀ o w₁, R (.ok o) w₁ → (Host.send o).Succeeds w₁ fun p w₂ =>
      ∀ w₃, w₂.Sustains w₃ → (unpack p).Ends w₃ Q) :
    (funcall function vs).Ends w Q := by
  have hrefuse : (refuseForbiddenHandle function).Succeeds w fun _ w₁ => w₁ = w :=
    ((isAdditive_refuseForbiddenHandle function).succeeds fun hdue =>
      gives_refuseForbiddenHandle hdue.steady ha hf hallowed).mono fun _ _ _ h => h.2.1
  refine hrefuse.ends_bind fun _ w₁ _ heq => ?_
  obtain rfl := heq
  refine Ends.mono (ends_keeping_sustained hQ
    ((succeedsUnless_packAll hvs).ends_bind (fun ps w₂ hs₂ hps => ?_) hE)) fun _ _ h => h.1
  -- while the call is in progress
  have hout : ∀ w₃ : World, w₃.Sustains (Undo.leaveOutbound.run w₃) :=
    fun w₃ => .of_host (.of_border (.refl _) rfl rfl rfl rfl) rfl rfl
  refine Ends.bind (Q := fun r w₃ => (∀ p, r = .ok p → ∀ w₄, w₃.Sustains w₄ →
    (unpack p).Ends w₄ Q) ∧ ∀ e, r = .error e → Q (.error e) w₃) ?_
      (fun p w₃ hp => hp.1 p rfl w₃ (.refl w₃)) fun e w₃ he => he.2 e rfl
  refine ends_within rfl rfl (fun _ => rfl) ?_
  have hs₃ : w₂.Sustains w₂.calling :=
    .of_host (.of_border (.refl _) rfl rfl rfl rfl) rfl rfl
  have hresolved := (hs₂.trans hs₃).grown.host.kept hf
  have hresolve : (Host.resolve function.id).Succeeds w₂.calling
      fun f w₃ => f = .ref a ∧ w₃ = w₂.calling :=
    (succeeds_query (.resolve? function.id)).bind fun r w₃ _ heq => by
      obtain ⟨rfl, rfl⟩ := heq
      simp only [Query.ask, hresolved]
      exact succeeds_pure ⟨rfl, rfl⟩
  refine hresolve.ends_bind fun f w₃ _ heq => ?_
  obtain ⟨rfl, rfl⟩ := heq
  refine (Host.succeeds_receiveAll (hps.imp fun v p h w₄ hs₄ => h w₄ (hs₃.trans hs₄))).ends_bind
    fun os w₄ hs₄ hos => ?_
  refine (happly os w₄ (hs₂.trans (hs₃.trans hs₄)) hos).bind (fun o w₅ ho => ?_) fun e w₅ he => ?_
  · refine Ends.mono (hsend o w₅ ho) fun r w₆ hr => ?_
    obtain ⟨p, rfl, -, hp⟩ := hr
    refine ⟨fun p' hp' w₇ hs₇ => ?_, fun e he => by cases he⟩
    obtain rfl := Except.ok.inj hp'
    exact hp w₇ ((hout w₆).trans hs₇)
  · refine ⟨fun p hp => (by cases hp), fun e' he' => ?_⟩
    obtain rfl := Except.error.inj he'
    exact hQ _ _ _ (hout w₅) (herror e w₅ he)

/-- A call of a builtin that is offered comes to what comes of the builtin, and the handles
in a result are held. -/
theorem ends_call {b : Builtin} {vs : List Value}
    (hname : canonicalName b.name = b.name) (hoffers : w.Offers b)
    (hvs : ∀ v ∈ vs, w.CrossesUnless E v) (hE : ∀ e w₁, w.Sustains w₁ → E e → Q (.error e) w₁)
    (hQ : ∀ r w w₁, w.Sustains w₁ → Q r w → Q r w₁)
    (hrun : ∀ os w₁, w.Sustains w₁ → List.Forall₂ (fun v o => w₁.StandsFor v o) vs os →
      (b.run os).Ends w₁ R)
    (herror : ∀ e w₁, R (.error e) w₁ → Q (.error e) w₁)
    (hsend : ∀ o w₁, R (.ok o) w₁ → (Host.send o).Succeeds w₁ fun p w₂ =>
      ∀ w₃, w₂.Sustains w₃ → (unpack p).Ends w₃ Q) :
    (call b.name vs).Ends w fun r w₁ =>
      Q r w₁ ∧ ∀ v, r = .ok v → ∀ h ∈ v.handles, h ∈ w₁.script.held := by
  have hrefuse : (refuseForbidden (canonicalName b.name)).Succeeds w fun _ w₁ => w₁ = w := by
    have hgives : (refuseForbidden (canonicalName b.name)).Gives 0 w (.ok ()) w := by
      rw [hname]
      exact gives_refuseForbidden hoffers.allowed
    exact ((isAdditive_refuseForbidden _).succeeds fun _ => hgives).mono fun _ _ _ h => h.2.1
  refine hrefuse.ends_bind fun _ w₁ _ heq => ?_
  obtain rfl := heq
  refine ends_keeping_sustained hQ ?_
  have hsymbol := succeeds_symbol (w := w₁) (show hostName (canonicalName b.name) .symbol =
    canonicalName b.name by rw [hname]; exact hname)
  refine hsymbol.ends_bind fun function w₂ hs₂ hfunction => ?_
  obtain ⟨⟨x, hx, hnames⟩, -⟩ := hfunction
  -- there is one symbol of the name
  obtain ⟨a, value, f, hfind, ha, hf⟩ := (hs₂.offers hoffers).function
  rw [hname] at hnames
  obtain ⟨hnil, -⟩ | ⟨a', value', f', rfl, ha'⟩ := hnames
  · exact absurd hnil b.name_ne_nil
  obtain rfl := Option.some.inj
    (hfind.symm.trans ((hs₂.offers hoffers).sole a' value' f' ha'))
  refine ends_funcall hx ha (hs₂.offers hoffers).allowed
    (fun v hv => hs₂.crossesUnless (hvs v hv)) (fun e w₃ hs₃ => hE e w₃ (hs₂.trans hs₃)) hQ (fun os w₃ hs₃ hos => ?_) herror hsend
  exact Host.ends_apply_builtin (hs₃.grown.host.heap.cell ha) (hs₃.grown.host.heap.cell hf)
    (hrun os w₃ (hs₂.trans hs₃) hos)

/-! ### What arrives -/

/-- From now on, what is sent of an object arrives as `Q` says. -/
def HandsOver (Q : Value → World → Prop) (o : Obj) (w : World) : Prop :=
  (Host.send o).Succeeds w fun p w₁ => ∀ w₂, w₁.Sustains w₂ → (unpack p).Succeeds w₂ Q

/-- So it arrives, unless taking it in fails as `E` says. -/
def HandsOverUnless (E : Failure → Prop) (Q : Value → World → Prop) (o : Obj) (w : World) : Prop :=
  (Host.send o).Succeeds w fun p w₁ => ∀ w₂, w₁.Sustains w₂ → (unpack p).SucceedsUnless E w₂ Q

theorem HandsOver.unless {Q : Value → World → Prop} (h : HandsOver Q o w) :
    HandsOverUnless E Q o w :=
  Succeeds.mono h fun _ _ _ hp w₂ hs₂ => (hp w₂ hs₂).unless

/-- A call of a builtin that is offered succeeds with what arrives of what the builtin
gives, unless an argument cannot be packed or the result cannot be taken in, and the handles
in the result are held. -/
theorem succeedsUnless_call {b : Builtin} {vs : List Value} {Q : Value → World → Prop}
    {R : Obj → World → Prop} (hname : canonicalName b.name = b.name) (hoffers : w.Offers b)
    (hvs : ∀ v ∈ vs, w.CrossesUnless E v) (hQ : ∀ v, World.Lasting (Q v))
    (hrun : ∀ os w₁, w.Sustains w₁ → List.Forall₂ (fun v o => w₁.StandsFor v o) vs os →
      (b.run os).Succeeds w₁ R)
    (hsend : ∀ o w₁, w.Sustains w₁ → R o w₁ → HandsOverUnless E Q o w₁) :
    (call b.name vs).SucceedsUnless E w fun v w₁ =>
      Q v w₁ ∧ ∀ h ∈ v.handles, h ∈ w₁.script.held := by
  refine Ends.mono (ends_call (E := E)
    (Q := fun r w₁ => w.Sustains w₁ ∧ (∀ v, r = .ok v → Q v w₁) ∧ ∀ e, r = .error e → E e)
    (R := fun r w₁ => ∃ o, r = .ok o ∧ w.Sustains w₁ ∧ R o w₁) hname hoffers hvs
    (fun e w₁ hs he => ⟨hs, nofun, fun e' he' => Except.error.inj he' ▸ he⟩)
    (fun r w₁ w₂ hs hr => ?_)
    (fun os w₁ hs hos => Ends.mono (hrun os w₁ hs hos) fun r w₂ hr => ?_)
    (fun e w₁ he => ?_) fun o w₁ ho => ?_) fun r w₁ hr => ?_
  · obtain ⟨hs₁, hok, herror⟩ := hr
    exact ⟨hs₁.trans hs, fun v hv => (hQ v).grows hs.grown (hok v hv), herror⟩
  · obtain ⟨o, rfl, hs₂, ho⟩ := hr
    exact ⟨o, rfl, hs.trans hs₂, ho⟩
  · obtain ⟨o, ho, -⟩ := he
    cases ho
  · obtain ⟨o', ho', hs₁, ho⟩ := ho
    obtain rfl := Except.ok.inj ho'
    refine (hsend o w₁ hs₁ ho).mono fun p w₂ hs₂ hp w₃ hs₃ =>
      Ends.mono (hp w₃ hs₃) fun r w₄ hr => ?_
    exact ⟨hs₁.trans (hs₂.trans (hs₃.trans hr.1)), hr.2⟩
  · exact ⟨hr.1.1, fun v hv => ⟨hr.1.2.1 v hv, hr.2 v hv⟩, hr.1.2.2⟩

/-- If the arguments cross, it succeeds. -/
theorem succeeds_call {b : Builtin} {vs : List Value} {Q : Value → World → Prop}
    {R : Obj → World → Prop} (hname : canonicalName b.name = b.name) (hoffers : w.Offers b)
    (hvs : ∀ v ∈ vs, w.Crosses v) (hQ : ∀ v, World.Lasting (Q v))
    (hrun : ∀ os w₁, w.Sustains w₁ → List.Forall₂ (fun v o => w₁.StandsFor v o) vs os →
      (b.run os).Succeeds w₁ R)
    (hsend : ∀ o w₁, w.Sustains w₁ → R o w₁ → HandsOver Q o w₁) :
    (call b.name vs).Succeeds w fun v w₁ => Q v w₁ ∧ ∀ h ∈ v.handles, h ∈ w₁.script.held :=
  (succeedsUnless_call hname hoffers (fun v hv => (hvs v hv).unless) hQ hrun
    fun o w₁ hs ho => (hsend o w₁ hs ho).unless).succeeds

end Border

end Crossing
