import Crossing.Proofs.TwoRuns.Procedures

/-!
# The exchange in two runs

What crosses between the runtimes is alike in two runs. The host sends objects
by numbers that both hosts keep; what is packed refers to handles that are held
until the host has taken it in.

- `send_alike` and `unpack_alike`: from the host to script code;
- `pack_alike` and `receive_alike`: from script code to the host;
- `invoke_alike` and `funcall_alike`: calls in both directions.
-/

namespace Crossing

variable {L : License}

namespace Pairing

/-- Numbers of handles that the running code of both runs holds. -/
def HeldId (P : Pairing L) (i i' : ObjectId) : Prop :=
  ∃ h h', P.Held h h' ∧ h.id = i ∧ h'.id = i'

/-- Numbers that the host may be asked for: those of held handles, and any if
the two runs are one. -/
def Resolves (P : Pairing L) (i i' : ObjectId) : Prop :=
  P.HeldId i i' ∨ L.IsExact ∧ i = i'

variable {P P' : Pairing L}

/-- Handles that are held in step have numbers that are held in step. -/
theorem heldId_of_held {h h' : Handle} (hh : P.Held h h') : P.HeldId h.id h'.id :=
  ⟨h, h', hh, rfl, rfl⟩

theorem HeldId.known {i i' : ObjectId} (hi : P.HeldId i i') : P.known.rel i i' := by
  obtain ⟨h, h', hh, rfl, rfl⟩ := hi
  exact P.known_held hh

/-- What was held in step still is when more is held. -/
theorem HeldId.of_suffix {i i' : ObjectId} (hP : P.held <:+ P'.held) (hi : P.HeldId i i') :
    P'.HeldId i i' := by
  obtain ⟨h, h', hh, hi⟩ := hi
  exact ⟨h, h', held_of_suffix hP hh, hi⟩

/-- What resolved in step still does when more is held. -/
theorem Resolves.of_suffix {i i' : ObjectId} (hP : P.held <:+ P'.held) (hi : P.Resolves i i') :
    P'.Resolves i i' := by
  rcases hi with hi | hi
  · exact .inl (hi.of_suffix hP)
  · exact .inr hi

theorem alike_of_suffix {v v' : Value} (hP : P.held <:+ P'.held) (hv : v.Alike P.Held v') :
    v.Alike P'.Held v' :=
  hv.mono fun _ _ => held_of_suffix hP

theorem forall₂_of_suffix {vs vs' : List Value} (hP : P.held <:+ P'.held)
    (hvs : List.Forall₂ (Value.Alike P.Held) vs vs') :
    List.Forall₂ (Value.Alike P'.Held) vs vs' :=
  hvs.imp fun _ _ => alike_of_suffix hP

end Pairing

variable {P : Pairing L} {p p' : Parcel} {v v' : Value} {vs vs' : List Value} {h h' : Handle}
  {i i' : ObjectId}

namespace Host

open Proc

/-! ### The host's side -/

/-- The host keeps the same object under numbers that correspond. -/
theorem resolve_alike (hi : P.known.rel i i') :
    (resolve i).Alike P (resolve i') fun _ o o' => o = o' := by
  refine (Alike.query (.resolve hi)).bind ?_
  rintro _ o _ - ⟨rfl, rfl, hnone⟩
  cases o with
  | some o => exact .pure rfl
  | none =>
    obtain rfl := hnone rfl
    exact .stop _

/-- Under an exact license numbers are the same in both runs, and so are the objects that
they stand for. -/
theorem resolve_alike_exact (hL : L.IsExact) (i : ObjectId) :
    (resolve i).Alike P (resolve i) fun _ o o' => o = o' := by
  refine (Alike.query (.exact hL _)).bind ?_
  rintro _ o _ - ⟨rfl, rfl⟩
  cases o with
  | some o => exact .pure rfl
  | none => exact .stop _

theorem refer_alike (o : Obj) :
    (refer o).Alike P (refer o) fun P' p p' => P.Grows P' ∧ p.Alike P'.known.rel p' :=
  (Alike.change (.retain o)).bind fun _ _ _ _ ⟨hP, hi, _⟩ => .pure ⟨hP, .reference hi⟩

theorem wrapped_alike (h : Heap) (o : Obj) :
    (wrapped? h o).Alike P (wrapped? h o) fun P' key key' => P.Grows P' ∧ key = key' := by
  unfold wrapped?
  split
  · refine (Alike.change (.shared rfl)).bind ?_
    rintro P₁ name _ - ⟨hP₁, rfl⟩
    exact .pure ⟨hP₁, rfl⟩
  · exact .pure ⟨.refl P, rfl⟩

/-- What the host sends refers to objects that it keeps. -/
theorem send_alike (o : Obj) :
    (send o).Alike P (send o) fun P' p p' => P.Grows P' ∧ p.Alike P'.known.rel p' := by
  have hdata : ∀ {P : Pairing L} (s : String),
      (pure (.data s) : Proc Parcel).Alike P (pure (.data s)) fun P' p p' =>
        P.Grows P' ∧ p.Alike P'.known.rel p' := fun s => .pure ⟨.refl _, .data s⟩
  refine (Alike.query (.shared rfl)).bind ?_
  rintro _ h _ - ⟨rfl, rfl⟩
  split
  · exact hdata _
  · exact hdata _
  · split
    · exact hdata _
    · exact refer_alike o
  · exact hdata _
  · split
    · refine (Alike.change (.shared rfl)).bind ?_
      rintro P₁ t _ - ⟨hP₁, rfl⟩
      split
      · exact .pure ⟨hP₁, .data _⟩
      · exact (refer_alike o).weaken fun P₂ p p' _ h => ⟨hP₁.trans h.1, h.2⟩
    · exact refer_alike o
  · refine (wrapped_alike h o).bind ?_
    rintro P₁ key _ - ⟨hP₁, rfl⟩
    split
    · exact .pure ⟨hP₁, .wrapped _⟩
    · exact (refer_alike o).weaken fun P₂ p p' _ h => ⟨hP₁.trans h.1, h.2⟩
  · exact refer_alike o

/-- Objects are sent in step, one after the other, with the numbers that were known before
still known. -/
theorem sendAll_alike (os : List Obj) :
    (sendAll os).Alike P (sendAll os) fun P' ps ps' =>
      P.Grows P' ∧ List.Forall₂ (Parcel.Alike P'.known.rel) ps ps' :=
  .mapM (E := fun _ => Eq) Pairing.Grows.refl (fun _ _ _ => Pairing.Grows.trans)
    (fun _ _ _ _ _ ho => ho) (fun _ _ _ _ hP hp => hp.mono hP.known)
    (by rintro P o _ rfl; exact send_alike o) (List.forall₂_same.mpr fun _ _ => rfl)

/-- The host takes in the same object. -/
theorem receive_alike (hp : p.Alike P.known.rel p') :
    (receive p).Alike P (receive p') fun _ o o' => o = o' := by
  cases hp with
  | data text =>
    exact ((keeps_readDatum text).bind fun j => keeps_ofDatum j).alike
  | reference hi => exact resolve_alike hi
  | wrapped key => exact (keeps_marker key).alike

/-- A parcel that resolves in step stands for the same object in both runs. -/
theorem receive_alike_of_resolves (hp : p.Alike P.Resolves p') :
    (receive p).Alike P (receive p') fun _ o o' => o = o' := by
  cases hp with
  | data text =>
    exact ((keeps_readDatum text).bind fun j => keeps_ofDatum j).alike
  | reference hi =>
    rcases hi with hi | ⟨hL, rfl⟩
    · exact resolve_alike hi.known
    · exact resolve_alike_exact hL _
  | wrapped key => exact (keeps_marker key).alike

/-- Parcels are received in step, one after the other. -/
theorem receiveAll_alike {ps ps' : List Parcel}
    (hps : List.Forall₂ (Parcel.Alike P.Resolves) ps ps') :
    (receiveAll ps).Alike P (receiveAll ps') fun _ os os' => os = os' :=
  (Alike.mapM_held (E := fun P => Parcel.Alike P.Resolves) (Q := fun _ => Eq)
    (fun _ _ _ _ hP hp => hp.mono fun _ _ => Pairing.Resolves.of_suffix hP)
    (fun _ _ _ _ _ h => h) (fun _ _ _ hp => receive_alike_of_resolves hp) hps).weaken
    fun _ _ _ _ h => List.forall₂_eq_eq_eq ▸ h

theorem structuralForm_alike (o : Obj) :
    (structuralForm o).Alike P (structuralForm o) fun _ => Eq :=
  (keeps_structuralForm o).alike

end Host

namespace Border

open Proc

/-! ### Symbols -/

theorem refuseForbidden_alike (name : String) :
    (refuseForbidden name).Alike P (refuseForbidden name) fun _ _ _ => True := by
  refine (Alike.query (.shared rfl)).bind ?_
  rintro _ config _ - ⟨rfl, rfl⟩
  split
  · exact .fail _
  · exact .pure trivial

/-- Handles are refused in step: what they name is the same, though their numbers are not.
-/
theorem refuseForbiddenHandle_alike (hh : P.Held h h') :
    (refuseForbiddenHandle h).Alike P (refuseForbiddenHandle h') fun _ _ _ => True := by
  refine (Alike.query (.nameOf hh)).bind ?_
  rintro _ name _ - ⟨rfl, rfl⟩
  split
  · exact refuseForbidden_alike _
  · exact .pure trivial

/-- A symbol is looked up in step, and the runs hold on to it in step. -/
theorem internNow_alike (name : String) (kind : SymbolKind) :
    (internNow name kind).Alike P (internNow name kind) fun P' => P'.Held := by
  refine (Alike.change (.intern name)).bind ?_
  rintro P₁ o _ - ⟨-, rfl, hnamed⟩
  refine (Alike.change (.retain o)).bind fun P₂ i i' _ ⟨hP₂, hi, hstands⟩ => ?_
  refine (Alike.change (.adopt hi)).bind ?_
  rintro P₃ h h' - ⟨hP₃, hh, rfl⟩
  -- what the name stands for is kept under the number of the handle
  have hstands₃ := hP₃.stands _ _ hstands
  have hnamed₃ := (hP₂.trans hP₃).named _ _ hnamed
  refine (Alike.change (.recordName hh name hstands₃ hnamed₃)).bind
    fun P₄ _ _ hP₄ ⟨hgrows, _⟩ => ?_
  have hh₄ := Pairing.held_of_suffix hP₄ hh
  refine (Alike.change (.cacheSymbol kind name hh₄ (hgrows.stands _ _ hstands₃)
    (hgrows.named _ _ hnamed₃))).bind fun P₅ _ _ hP₅ _ => ?_
  exact .pure (Pairing.held_of_suffix hP₅ hh₄)

/-- A lookup gives the corresponding handle, whether it is answered from memory
or not. -/
theorem lookup_alike (name : String) (kind : SymbolKind) (cached : Bool) :
    (lookup name kind cached).Alike P (lookup name kind cached) fun P' => P'.Held := by
  unfold lookup
  split
  · refine (Alike.change (.recallSymbol kind _)).bind fun P₁ r r' _ ⟨_, hr⟩ => ?_
    cases hr with
    | some hh => exact .pure hh
    | none => exact internNow_alike _ kind
  · exact internNow_alike _ kind

theorem symbol_alike (name : String) :
    (symbol name).Alike P (symbol name) fun P' => P'.Held := lookup_alike name .symbol true

/-- Keywords are looked up in step, through the cache or without it. -/
theorem keyword_alike (name : String) :
    (keyword name).Alike P (keyword name) fun P' => P'.Held := lookup_alike name .keyword true

/-! ### Packing -/

theorem adopt_alike (o : Obj) :
    (adopt o).Alike P (adopt o) fun P' h h' => P'.Held h h' ∧ P'.stands h.id o := by
  refine (Alike.change (.retain o)).bind fun _ i i' _ ⟨_, hi, hstands⟩ => ?_
  refine (Alike.change (.adopt hi)).weaken ?_
  rintro _ h h' - ⟨hP, hh, rfl⟩
  exact ⟨hh, hP.stands _ _ hstands⟩

/-- What the host makes of a number is the number. -/
theorem ofDatum_of_number? {j : Json} {o : Obj} (h : j.number? = some o) :
    Host.ofDatum j = pure o := by
  cases j <;> cases h <;> rfl

/-- The handle of a datum. If the text of the datum reads as a number, the object
is this number. -/
theorem materialize_alike (j : Json) :
    (materialize j).Alike P (materialize j) fun P' h h' => P'.Held h h' ∧
      ∃ o text d, P'.stands h.id o ∧ j.toText = .ok text ∧ Json.parse text = .ok d ∧
        ∀ o', d.number? = some o' → o = o' := by
  unfold materialize
  cases htext : j.toText with
  | error f => exact .stop _
  | ok text =>
    change Alike P (Host.readDatum text >>= fun d => Host.ofDatum d >>= adopt)
      (Host.readDatum text >>= fun d => Host.ofDatum d >>= adopt) _
    unfold Host.readDatum
    -- the text is read on the other side as the same datum
    cases hparse : Json.parse text with
    | error fault => exact .stop _
    | ok d =>
      rw [pure_bind]
      -- a number is taken from the cache, if there is one
      cases hnumber : d.number? with
      | some o =>
        rw [ofDatum_of_number? hnumber, pure_bind]
        refine (adopt_alike o).weaken fun P' h h' _ ⟨hh, hstands⟩ => ?_
        exact ⟨hh, o, text, d, hstands, rfl, hparse, fun o' ho' =>
          Option.some.inj (hnumber.symm.trans ho')⟩
      | none =>
        refine (Host.keeps_ofDatum d).alike.bind ?_
        rintro P₁ o _ - rfl
        refine (adopt_alike o).weaken fun P' h h' _ ⟨hh, hstands⟩ => ?_
        refine ⟨hh, o, text, d, hstands, rfl, hparse, fun o' ho' => ?_⟩
        rw [hnumber] at ho'
        cases ho'

theorem formOrFailure_alike (hh : P.Held h h') :
    (formOrFailure h).Alike P (formOrFailure h') fun _ => Eq := by
  refine (Alike.query (.resolve (Pairing.known_held hh))).bind ?_
  rintro _ o _ - ⟨rfl, rfl, hnone⟩
  cases o with
  | some o =>
    refine (Host.structuralForm_alike o).bind ?_
    rintro _ j _ - rfl
    exact .pure rfl
  | none =>
    have hid : h.id = h'.id := hnone rfl
    rw [hid]
    exact .pure rfl

theorem structuralForm_alike (hh : P.Held h h') :
    (structuralForm h).Alike P (structuralForm h') fun _ => Eq := by
  refine (formOrFailure_alike hh).bind ?_
  rintro _ form _ - rfl
  exact (Alike.ofExcept form).weaken fun _ _ _ _ h => h.2

theorem wrap_alike (hv : v.Alike P.Held v') : (wrap v).Alike P (wrap v') fun P' => P'.Held := by
  refine (Alike.change (.wrap hv)).bind ?_
  rintro _ key _ - ⟨-, rfl⟩
  split
  · refine (Host.keeps_marker _).alike.bind ?_
    rintro _ o _ - rfl
    exact (adopt_alike o).weaken fun _ _ _ _ h => h.1
  · exact .fail _

theorem unwrap_alike (key : Key) :
    (unwrap key).Alike P (unwrap key) fun P' v v' => P.Grows P' ∧ v.Alike P'.Held v' := by
  refine (Alike.change (.unwrap key)).bind fun P₁ r r' _ ⟨hP, hr⟩ => ?_
  cases hr with
  | some hv => exact .pure ⟨hP, hv⟩
  | none => exact .fail _

/-- What script code takes in is held. -/
theorem unpack_alike (hp : p.Alike P.known.rel p') :
    (unpack p).Alike P (unpack p') fun P' v v' => P.Grows P' ∧ v.Alike P'.Held v' := by
  cases hp with
  | data text =>
    refine (Alike.ofExcept _).bind ?_
    rintro _ j _ - ⟨rfl, rfl⟩
    refine .pure ⟨.refl _, Value.alike_of_handles_eq_nil (Value.handles_ofJson j)⟩
  | reference hi =>
    exact (Alike.change (.adopt hi)).bind fun P₁ h h' _ ⟨hP, hh, _⟩ =>
      .pure ⟨hP, Value.alike_handle hh⟩
  | wrapped key => exact unwrap_alike key

/-- Parcels are unpacked in step, one after the other. -/
theorem unpackAll_alike {ps ps' : List Parcel}
    (hps : List.Forall₂ (Parcel.Alike P.known.rel) ps ps') :
    (ps.mapM unpack).Alike P (ps'.mapM unpack) fun P' => List.Forall₂ (Value.Alike P'.Held) :=
  (Alike.mapM (E := fun P => Parcel.Alike P.known.rel) (Q := fun P => Value.Alike P.Held)
    Pairing.Grows.refl (fun _ _ _ => Pairing.Grows.trans)
    (fun _ _ _ _ hP hp => hp.mono hP.known)
    (fun _ _ _ _ hP hv => Pairing.alike_of_suffix hP.held hv)
    (fun _ _ _ hp => unpack_alike hp) hps).weaken fun _ _ _ _ h => h.2

/-- A number that both runs have cached, or neither, is packed in step. -/
theorem packNumber_alike {key : NumberKey} (hkey : v.numberKey? = some key) :
    (packNumber key v).Alike P (packNumber key v) fun P' => P'.Held := by
  unfold packNumber
  cases hj : v.toJson with
  | error f => exact .stop _
  | ok j =>
    refine (Alike.change (.recallNumber key)).bind fun P₁ r r' _ ⟨_, hr⟩ => ?_
    cases hr with
    | some hh => exact .pure hh
    | none =>
      refine (materialize_alike j).bind ?_
      rintro P₂ h h' - ⟨hh, o, text, d, hstands, htext, hparse, hread⟩
      have hcrosses : key.Crosses o := ⟨v, j, text, d, hkey, hj, htext, hparse, hread⟩
      exact (Alike.change (.cacheNumber key hh hstands hcrosses)).bind fun P₃ _ _ hP₃ _ =>
        .pure (Pairing.held_of_suffix hP₃ hh)

/-- How two packed values are related: as parcels whose numbers are those of held
handles, with equally many handles to hold. -/
def PackAlike (P : Pairing L) (r r' : Parcel × List Handle) : Prop :=
  r.1.Alike P.HeldId r'.1 ∧ r.2.length = r'.2.length

theorem packData_alike (hj : v'.toJson = v.toJson) :
    (packData v).Alike P (packData v') fun P' => Parcel.Alike P'.HeldId := by
  unfold packData
  rw [hj]
  refine (Alike.ofExcept _).bind ?_
  rintro _ text _ - ⟨rfl, rfl⟩
  exact .pure (.data text)

/-- A number or other data is packed in step, through the cache or without it. -/
theorem packNumberOrData_alike {key : NumberKey} (hkey : v.numberKey? = some key) :
    (packNumberOrData key v).Alike P (packNumberOrData key v) PackAlike := by
  refine (Alike.query (.shared rfl)).bind ?_
  rintro _ config _ - ⟨rfl, rfl⟩
  split
  · exact (packNumber_alike hkey).bind fun _ _ _ _ hh =>
      .pure ⟨.reference (Pairing.heldId_of_held hh), rfl⟩
  · exact (packData_alike rfl).bind fun _ _ _ _ hp => .pure ⟨hp, rfl⟩

/-- What is packed refers to handles that are held. -/
theorem pack_alike (hv : v.Alike P.Held v') : (pack v).Alike P (pack v') PackAlike := by
  have hdata : ∀ u u' : Value, u'.toJson = u.toJson →
      (do let p ← packData u; pure (p, []) : Proc (Parcel × List Handle)).Alike P
        (do let p ← packData u'; pure (p, [])) PackAlike := fun u u' hu =>
    (packData_alike hu).bind fun _ _ _ _ hp => .pure ⟨hp, rfl⟩
  -- handles are packed as references, and what has no handles as data
  cases v with
  | handle h =>
    obtain ⟨h', rfl, hh⟩ := hv
    exact .pure ⟨.reference (Pairing.heldId_of_held hh), rfl⟩
  | function c =>
    obtain rfl := hv
    exact (Alike.perform (.close c)).bind fun _ _ _ _ hh =>
      .pure ⟨.reference (Pairing.heldId_of_held hh), rfl⟩
  | native n =>
    obtain rfl := hv
    exact .fail _
  | list vs =>
    obtain ⟨vs', rfl, hvs⟩ := hv
    exact hdata (.list vs) (.list vs') (Value.Alike.toJson_eq (R := P.Held) ⟨vs', rfl, hvs⟩)
  | object fs =>
    obtain ⟨fs', rfl, hfs⟩ := hv
    exact hdata (.object fs) (.object fs') (Value.Alike.toJson_eq (R := P.Held) ⟨fs', rfl, hfs⟩)
  | int i =>
    obtain rfl := hv
    exact packNumberOrData_alike rfl
  | float x =>
    obtain rfl := hv
    exact packNumberOrData_alike rfl
  | null | bool b | text s =>
    obtain rfl := hv
    exact hdata _ _ rfl

/-- Values are packed in step, one after the other. -/
theorem packAll_alike (hvs : List.Forall₂ (Value.Alike P.Held) vs vs') :
    (packAll vs).Alike P (packAll vs') fun P' => List.Forall₂ (Parcel.Alike P'.HeldId) :=
  .mapM_held (E := fun P => Value.Alike P.Held) (Q := fun P => Parcel.Alike P.HeldId)
    (fun _ _ _ _ hP hv => Pairing.alike_of_suffix hP hv)
    (fun _ _ _ _ hP hp => hp.mono fun _ _ => Pairing.HeldId.of_suffix hP)
    (fun _ _ _ hv => (pack_alike hv).bind fun _ _ _ _ hr => .pure hr.1) hvs

/-! ### Calls of the host -/

end Border

/-- The host applies the same function to the same objects, and what it sends
refers to objects that it keeps. -/
theorem Host.invoke_alike (hi : P.Resolves i i') {ps ps' : List Parcel}
    (hps : List.Forall₂ (Parcel.Alike P.Resolves) ps ps') :
    (Host.invoke i ps).Alike P (Host.invoke i' ps') fun P' => Parcel.Alike P'.known.rel := by
  have hf : (Host.resolve i).Alike P (Host.resolve i') fun _ o o' => o = o' := by
    rcases hi with hi | ⟨hL, rfl⟩
    · exact Host.resolve_alike hi.known
    · exact Host.resolve_alike_exact hL i
  refine hf.bind ?_
  rintro P₁ f _ hP₁ rfl
  refine (Host.receiveAll_alike (hps.imp fun _ _ hp =>
    hp.mono fun _ _ => Pairing.Resolves.of_suffix hP₁)).bind ?_
  rintro _ os _ - rfl
  refine (Host.keeps_apply f os).alike.bind ?_
  rintro _ o _ - rfl
  exact (Host.send_alike o).weaken fun _ _ _ _ h => h.2

namespace Border

open Proc

/-- A function is called in step. The argument is that for any task of the host. -/
theorem funcall_alike (hh : P.Held h h') (hvs : List.Forall₂ (Value.Alike P.Held) vs vs') :
    (funcall h vs).Alike P (funcall h' vs') fun P' => Value.Alike P'.Held := by
  refine (refuseForbiddenHandle_alike hh).bind fun P₁ _ _ hP₁ _ => Alike.keeping_value ?_
  refine (packAll_alike (Pairing.forall₂_of_suffix hP₁ hvs)).bind fun P₂ ps ps' hP₂ hps => ?_
  have hi : P₂.Resolves h.id h'.id :=
    .inl (Pairing.heldId_of_held (Pairing.held_of_suffix (hP₁.trans hP₂) hh))
  refine (Alike.within .outbound (Host.invoke_alike hi (hps.imp fun _ _ hp =>
    hp.mono fun _ _ => .inl))).bind fun P₃ p p' _ hp => ?_
  exact (unpack_alike hp).weaken fun _ _ _ _ hv => hv.2

/-- A function is called by its name in step. -/
theorem call_alike (name : String) (hvs : List.Forall₂ (Value.Alike P.Held) vs vs') :
    (call name vs).Alike P (call name vs') fun P' => Value.Alike P'.Held := by
  refine (refuseForbidden_alike _).bind fun P₁ _ _ hP₁ _ => Alike.keeping_value ?_
  refine (lookup_alike _ .symbol true).bind fun P₂ h h' hP₂ hh => ?_
  exact funcall_alike hh (Pairing.forall₂_of_suffix (hP₁.trans hP₂) hvs)

/-- A list is made in step. -/
theorem list_alike (hvs : List.Forall₂ (Value.Alike P.Held) vs vs') :
    (list vs).Alike P (list vs') fun P' => Value.Alike P'.Held := call_alike "list" hvs

theorem evaluate_alike (hv : v.Alike P.Held v') :
    (evaluate v).Alike P (evaluate v') fun P' => Value.Alike P'.Held :=
  call_alike "eval" (.cons hv .nil)

/-! ### Calls of script code -/

/-- Steps are played in step, with values that are alike. -/
theorem play_alike (steps : List Step) (hvs : List.Forall₂ (Value.Alike P.Held) vs vs') :
    (play steps vs).Alike P (play steps vs') fun P' => Value.Alike P'.Held :=
  .perform (.play steps hvs)

/-- A result that is packed refers to an object that the host keeps, although
its handle is given up. -/
theorem packing_alike {q q' : Proc Value}
    (hq : q.Alike P q' fun P' => Value.Alike P'.Held) :
    (packing q).Alike P (packing q') fun P' => Parcel.Alike P'.known.rel := by
  have hpart : (q >>= fun v => pack v >>= fun r => pure r.1 : Proc Parcel).Alike P
      (q' >>= fun v => pack v >>= fun r => pure r.1)
      fun P' => Parcel.Alike P'.known.rel :=
    hq.bind fun _ v v' _ hv => (pack_alike hv).bind fun P₂ r r' _ hr =>
      .pure (hr.1.mono fun _ _ => Pairing.HeldId.known)
  exact hpart.held fun P₁ P₂ p p' hgive hp => by rwa [hgive.known_eq]

/-- A callback runs in step, whether it is one of the steps or built in. -/
theorem runCallback_alike (c : Callable) {ps ps' : List Parcel}
    (hps : List.Forall₂ (Parcel.Alike P.known.rel) ps ps') :
    (runCallback c ps).Alike P (runCallback c ps') fun P' => Parcel.Alike P'.known.rel :=
  packing_alike (.keeping_value ((unpackAll_alike hps).bind fun _ _ _ _ hvs =>
    play_alike c.body hvs))

/-- The references of parcels that are alike are known in step, in order. -/
theorem forall₂_references {K : ObjectId → ObjectId → Prop} {ps ps' : List Parcel}
    (hps : List.Forall₂ (Parcel.Alike K) ps ps') :
    List.Forall₂ K (ps.filterMap Parcel.reference?) (ps'.filterMap Parcel.reference?) := by
  induction hps with
  | nil => exact .nil
  | cons hp _ ih =>
    cases hp with
    | data text => exact ih
    | reference hi => exact .cons hi ih
    | wrapped key => exact ih

/-- A callback takes in the objects that the host sent, and its result refers to
an object that the host keeps. -/
theorem invoke_alike (key : Key) {ps ps' : List Parcel}
    (hps : List.Forall₂ (Parcel.Alike P.known.rel) ps ps') :
    (invoke key ps).Alike P (invoke key ps') fun P' => Parcel.Alike P'.known.rel := by
  refine (Alike.query (.shared rfl)).bind ?_
  rintro _ c _ - ⟨rfl, rfl⟩
  cases c with
  | none => exact .fail _
  | some c =>
    have hcall := Alike.within (.callback key (forall₂_references hps)) (runCallback_alike c hps)
    dsimp only
    split
    · exact hcall
    · rw [hps.length_eq]
      split
      · exact hcall
      · exact .fail _

/-- A source is evaluated in step, and its result is sent in step. -/
theorem evaluateSource_alike (source : String) :
    (evaluateSource source).Alike P (evaluateSource source) fun P' =>
      Parcel.Alike P'.known.rel := by
  refine Alike.within .source (packing_alike ?_)
  refine (Alike.query (.shared rfl)).bind ?_
  rintro _ evaluator _ - ⟨rfl, rfl⟩
  cases evaluator with
  | some body => exact play_alike body (.cons rfl .nil)
  | none =>
    dsimp only [evaluateWith, literal]
    cases Json.parse (String.ofList (trimBlanks source.toList)) with
    | ok j => exact .done (Value.alike_of_handles_eq_nil (Value.handles_ofJson j))
    | error fault => exact .fail _

end Border

end Crossing
