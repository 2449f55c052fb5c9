import Crossing.Proofs.Outcomes
import Crossing.Proofs.Readings

/-!
# Exchanges

What arrives where something crosses.

- `World.Shows`: an object is what a script value stands for; `World.Brings`: a parcel
  brings such an object;
- `Host.adds_ofDatum`: the host makes of the text of plain data what it stands for;
- `Host.adds_receiveAll`: what parcels bring, arrives;
- `Host.adds_send`: in what parcels objects are sent;
- `World.Packs`, `World.packs`: what is packed of a value brings what it stands for. For a
  function that is seen where closures are made.
-/

namespace Crossing

open Proc

variable {w w₁ : World}

/-! ### Lists -/

namespace Heap

variable {h : Heap} {o head : Obj} {items : List Obj}

/-- A list is known as itself, which is to say that it does not dangle. -/
theorem known_of_isList (hl : h.IsList o items) : h.known o = o := by
  cases hl with
  | nil => rfl
  | cons hpair _ => rw [known, if_pos (lt_size_of_get? hpair)]

/-- A list with items is a reference to a pair. -/
theorem exists_pair_of_list? (hl : h.list? o = some (head :: items)) :
    ∃ a tail, o = .ref a ∧ h.get? a = some (.cons head tail) ∧ h.list? tail = some items := by
  obtain ⟨hlist, hlen⟩ := list?_iff.mp hl
  cases hlist with
  | cons hpair htail =>
    exact ⟨_, _, rfl, hpair, list?_iff.mpr ⟨htail, Nat.le_of_succ_le hlen⟩⟩

end Heap

/-! ### The tables -/

namespace Interpreter

variable {i j : Interpreter} {id : ObjectId} {S : Obj → Prop}

/-- What a number stands for, it stands for as long as it stands for anything. -/
theorem promises_of_resolve? {o : Obj} (hi : i.Sound) (h : i.resolve? id = some o) :
    i.Promises id fun o' => o' = o :=
  ⟨le_of_resolve? hi h, fun _ ho => Option.some.inj (ho.symm.trans h)⟩

theorem Promises.imp {T : Obj → Prop} (h : i.Promises id S) (hST : ∀ o, S o → T o) :
    i.Promises id T := ⟨h.1, fun o ho => hST o (h.2 o ho)⟩

end Interpreter

namespace Proc

theorem adds_intern (name : String) :
    (change (.intern name)).Adds w fun o w₁ => w₁.host.heap.Names o name := by
  intro hr
  obtain ⟨r, w₁, hcomes, hok⟩ := adds_change (c := .intern name) rfl hr
  refine ⟨r, w₁, hcomes, fun o ho => ?_⟩
  obtain ⟨hg, rfl, rfl⟩ := hok o ho
  exact ⟨hg, Interpreter.names_intern hr.grounded.1 name⟩

/-- A new object has the first free address, and its own cell. -/
theorem adds_make (f : Fresh) :
    (make f).Adds w fun o w₁ => o = .ref w.host.heap.size ∧
      w₁.host.heap.get? w.host.heap.size = some (w.host.heap.cellOf f) ∧
      w₁.host.heap.size = w.host.heap.size + 1 := by
  refine (adds_change rfl).mono fun o w₁ _ h => ?_
  obtain ⟨rfl, rfl⟩ := h
  exact ⟨rfl, Heap.get?_allocate_self _ _, Array.size_push _⟩

/-- An object that is kept gets a number. -/
theorem adds_retain (o : Obj) :
    (change (.retain o)).Adds w fun id w₁ => w₁.host.resolve? id = some o ∧
      w₁.host.Promises id fun o' => o' = o := by
  intro hr
  obtain ⟨r, w₁, hcomes, hok⟩ := adds_change (c := .retain o) rfl hr
  refine ⟨r, w₁, hcomes, fun id hid => ?_⟩
  obtain ⟨hg, rfl, rfl⟩ := hok id hid
  have hself := Interpreter.resolve?_retain_self hr.sound.host o
  exact ⟨hg, hself, Interpreter.promises_of_resolve? (hr.sound.host.retain o) hself⟩

theorem adds_adopt (id : ObjectId) :
    (change (.adopt id)).Adds w fun h w₁ => h.id = id ∧ w₁.host = w.host := by
  refine (adds_change rfl).mono fun h w₁ _ heq => ?_
  obtain ⟨rfl, rfl⟩ := heq
  exact ⟨w.id_adopt id, w.host_adopt id⟩

/-- What is remembered of two keys, is of different keys. -/
theorem mem_of_recalled {κ : Type} [BEq κ] [LawfulBEq κ] {l : List (κ × Handle)} {k : κ}
    {h : Handle} (hrevive : (w.revive ((l.find? fun e => e.1 == k).map Prod.snd)).1 = some h) :
    (k, h) ∈ l := by
  obtain ⟨g, hg, -, heq⟩ | heq := World.revive_cases w _
  · rw [heq] at hrevive
    obtain rfl := Option.some.inj hrevive
    obtain ⟨⟨k', g⟩, hfind, rfl⟩ := Option.map_eq_some_iff.mp hg
    have hk : k' = k := by simpa using List.find?_some hfind
    exact hk ▸ List.mem_of_find?_eq_some hfind
  · rw [heq] at hrevive
    cases hrevive

/-- A handle that is remembered by a name is for a symbol of the name. -/
theorem adds_recallSymbol (kind : SymbolKind) (name : String) :
    (change (.recallSymbol kind name)).Adds w fun r w₁ => ∀ h, r = some h →
      w₁.host.Promises h.id fun o => w₁.host.heap.Names o name := by
  intro hr
  obtain ⟨r, w₁, hcomes, hok⟩ := adds_change (c := .recallSymbol kind name) rfl hr
  refine ⟨r, w₁, hcomes, fun cached hcached => ?_⟩
  obtain ⟨hg, rfl, rfl⟩ := hok cached hcached
  refine ⟨hg, fun h hh => ?_⟩
  have hmem := mem_of_recalled hh
  exact (hr.grounded.2.1 _ hmem).of_ages hg.host.ages fun o => hg.host.heap.names

/-- A handle that is remembered by a number is for the number. -/
theorem adds_recallNumber (key : NumberKey) :
    (change (.recallNumber key)).Adds w fun r w₁ => ∀ h, r = some h →
      w₁.host.Promises h.id key.Crosses := by
  intro hr
  obtain ⟨r, w₁, hcomes, hok⟩ := adds_change (c := .recallNumber key) rfl hr
  refine ⟨r, w₁, hcomes, fun cached hcached => ?_⟩
  obtain ⟨hg, rfl, rfl⟩ := hok cached hcached
  refine ⟨hg, fun h hh => ?_⟩
  exact (hr.grounded.2.2 _ (mem_of_recalled hh)).of_ages hg.host.ages fun o ho => ho

end Proc

/-! ### Values and objects -/

/-- Whether an object is a number. -/
def Obj.isNumber : Obj → Bool
  | .int _ | .float _ => true
  | _ => false

namespace World

/-- Whether an object is what a script value stands for in the host: that which a
handle is for, a closure for a function, and for plain data an object of its kind. -/
def Shows (w : World) : Value → Obj → Prop
  | .null, o => o = .nil
  | .bool false, o => o = .nil
  | .bool true, o => ∃ a, o = .ref a ∧ w.host.find? truthName = some a ∧
    w.host.heap.Names o truthName
  | .int i, o => o = .int i
  | .float _, o => o.isNumber = true
  | .text s, o => ∃ a, o = .ref a ∧ w.host.heap.get? a = some (.text s)
  | .list _, o => ∃ a items, o = .ref a ∧ w.host.heap.get? a = some (.vector items)
  | .object [], o => o = .nil
  | .object (_ :: _), o => ∃ items, w.host.heap.list? o = some items
  | .handle h, o => w.host.resolve? h.id = some o
  | .function _, o => ∃ a l, o = .ref a ∧ w.host.heap.get? a = some (.closure l)
  | .native _, _ => False

theorem lasting_shows (v : Value) (o : Obj) : Lasting fun w => w.Shows v o := by
  refine ⟨fun {w w₁} hg h => ?_⟩
  cases v with
  | bool b =>
    cases b with
    | false => exact h
    | true =>
      obtain ⟨a, rfl, ha, hname⟩ := h
      exact ⟨a, rfl, hg.host.names ha, hg.host.heap.names hname⟩
  | text s =>
    obtain ⟨a, rfl, ha⟩ := h
    exact ⟨a, rfl, hg.host.heap.cell ha⟩
  | list items =>
    obtain ⟨a, objects, rfl, ha⟩ := h
    exact ⟨a, objects, rfl, hg.host.heap.cell ha⟩
  | object fields =>
    cases fields with
    | nil => exact h
    | cons field fields =>
      obtain ⟨items, hitems⟩ := h
      exact ⟨items, hg.host.heap.list? hitems⟩
  | handle g => exact hg.host.kept h
  | function c =>
    obtain ⟨a, l, rfl, ha⟩ := h
    exact ⟨a, l, rfl, hg.host.heap.cell ha⟩
  | null | int _ | float _ | native _ => exact h

/-- From now on a parcel brings what a script value stands for. -/
def Brings (w : World) (v : Value) (p : Parcel) : Prop :=
  ∀ w₁, w.GrowsTo w₁ → (Host.receive p).Adds w₁ fun o w₂ => w₂.Shows v o

theorem lasting_brings (v : Value) (p : Parcel) : Lasting fun w => w.Brings v p :=
  ⟨fun hg h w₁ hg₁ => h w₁ (hg.trans hg₁)⟩

end World

namespace Host

/-- A number that resolves does so to the object that it stands for. -/
theorem adds_resolve (id : ObjectId) :
    (resolve id).Adds w fun o w₁ => w₁.host.resolve? id = some o := by
  refine (adds_query (.resolve? id)).bind fun r w₁ _ h => ?_
  obtain ⟨rfl, rfl⟩ := h
  simp only [Query.ask]
  split
  · exact adds_pure ‹_›
  · exact adds_fail _

/-- A text that is read as a datum is one. -/
theorem adds_readDatum (text : String) :
    (readDatum text).Adds w fun j _ => Json.parse text = .ok j := by
  unfold readDatum
  split
  · exact adds_pure ‹_›
  · exact adds_fail _

/-- The object for truth is the symbol of that name. -/
theorem adds_truth :
    truth.Adds w fun o w₁ => ∃ a, o = .ref a ∧ w₁.host.find? truthName = some a ∧
      w₁.host.heap.Names o truthName := by
  intro hr
  have hinterned := hr.grounded.1
  revert hr
  refine (adds_change (c := .intern truthName) rfl).mono fun o w₁ _ h => ?_
  obtain ⟨rfl, rfl⟩ := h
  obtain ⟨a, ha, hfind⟩ := w.host.exists_find?_intern (show truthName ≠ "nil" by decide)
  exact ⟨a, ha, hfind, Interpreter.names_intern hinterned truthName⟩

/-- Making a list gives a list of the items. -/
theorem adds_list (items : List Obj) :
    (list items).Adds w fun o w₁ => w₁.host.heap.list? o = some items := by
  induction items with
  | nil => exact adds_pure (Heap.list?_iff.mpr ⟨.nil, Nat.zero_le _⟩)
  | cons head items ih =>
    refine ih.bind fun tail w₁ _ htail => (adds_make _).mono fun o w₂ hg ho => ?_
    obtain ⟨rfl, hcell, hsize⟩ := ho
    obtain ⟨hlist, hlen⟩ := Heap.list?_iff.mp htail
    rw [Heap.cellOf, Heap.known_of_isList hlist] at hcell
    refine Heap.list?_iff.mpr ⟨.cons hcell (hg.host.heap.isList hlist), ?_⟩
    rw [hsize]
    exact Nat.succ_le_succ hlen

end Host

/-! ### What only adds -/

namespace Host

theorem isAdditive_make (f : Fresh) : (make f).IsAdditive := isAdditive_change rfl

theorem isAdditive_list (items : List Obj) : (list items).IsAdditive := by
  induction items with
  | nil => exact isAdditive_pure _
  | cons o items ih => exact ih.bind fun _ => isAdditive_make _

theorem isAdditive_marker (key : Key) : (marker key).IsAdditive :=
  (isAdditive_change rfl).bind fun _ => isAdditive_list _

mutual

theorem isAdditive_ofDatum : ∀ j : Json, (ofDatum j).IsAdditive
  | .null | .int _ | .float _ _ => by
    rw [ofDatum]
    exact isAdditive_pure _
  | .bool b => by
    rw [ofDatum, ofFlag]
    split
    · exact isAdditive_change rfl
    · exact isAdditive_pure _
  | .text s => by
    rw [ofDatum]
    exact isAdditive_make _
  | .list items => by
    rw [ofDatum]
    exact (isAdditive_ofData items).bind fun _ => isAdditive_make _
  | .object fields => by
    rw [ofDatum]
    exact (isAdditive_ofFields fields).bind fun _ => isAdditive_list _

theorem isAdditive_ofData : ∀ js : List Json, (ofData js).IsAdditive
  | [] => by
    rw [ofData]
    exact isAdditive_pure _
  | j :: js => by
    rw [ofData]
    exact (isAdditive_ofDatum j).bind fun _ => (isAdditive_ofData js).bind fun _ =>
      isAdditive_pure _

theorem isAdditive_ofFields : ∀ fields : List (String × Json), (ofFields fields).IsAdditive
  | [] => by
    rw [ofFields]
    exact isAdditive_pure _
  | (name, j) :: fields => by
    rw [ofFields]
    exact (isAdditive_change rfl).bind fun _ => (isAdditive_ofDatum j).bind fun _ =>
      (isAdditive_ofFields fields).bind fun _ => isAdditive_pure _

end

theorem isAdditive_readDatum (text : String) : (readDatum text).IsAdditive := by
  unfold readDatum
  split <;> simp

/-- Taking in a parcel. -/
theorem isAdditive_receive (p : Parcel) : (receive p).IsAdditive := by
  cases p with
  | data text => exact (isAdditive_readDatum text).bind isAdditive_ofDatum
  | reference id =>
    refine (isAdditive_query (.resolve? id)).bind fun r => ?_
    split <;> simp
  | wrapped key => exact isAdditive_marker key

theorem isAdditive_refer (o : Obj) : (refer o).IsAdditive :=
  (isAdditive_change rfl).bind fun _ => isAdditive_pure _

theorem isAdditive_wrapped? (h : Heap) (o : Obj) : (wrapped? h o).IsAdditive := by
  unfold wrapped?
  split
  · exact (isAdditive_change rfl).bind fun _ => isAdditive_pure _
  · exact isAdditive_pure _

/-- Sending an object. -/
theorem isAdditive_send (o : Obj) : (send o).IsAdditive := by
  refine (isAdditive_query .heap).bind fun h => ?_
  -- objects that are data are sent without being retained
  split
  · exact isAdditive_pure _
  · exact isAdditive_pure _
  · split
    · exact isAdditive_pure _
    · exact isAdditive_refer o
  · exact isAdditive_pure _
  · split
    · refine .bind (isAdditive_change rfl) fun t => ?_
      split
      · exact isAdditive_pure _
      · exact isAdditive_refer o
    · exact isAdditive_refer o
  · refine (isAdditive_wrapped? h o).bind fun r => ?_
    split
    · exact isAdditive_pure _
    · exact isAdditive_refer o
  · exact isAdditive_refer o

end Host

namespace Border

theorem isAdditive_adopt (o : Obj) : (adopt o).IsAdditive :=
  (isAdditive_change rfl).bind fun _ => isAdditive_change rfl

theorem isAdditive_materialize (j : Json) : (materialize j).IsAdditive :=
  (isAdditive_ofExcept _).bind fun text => (Host.isAdditive_readDatum text).bind fun j =>
    (Host.isAdditive_ofDatum j).bind isAdditive_adopt

theorem isAdditive_packData (v : Value) : (packData v).IsAdditive :=
  (isAdditive_ofExcept _).bind fun _ => isAdditive_pure _

theorem isAdditive_packNumber (key : NumberKey) (v : Value) : (packNumber key v).IsAdditive := by
  refine (isAdditive_ofExcept _).bind fun j => .bind (isAdditive_change rfl) fun r => ?_
  cases r with
  | some h => exact isAdditive_pure h
  | none =>
    exact (isAdditive_materialize j).bind fun _ => (isAdditive_change rfl).bind fun _ =>
      isAdditive_pure _

/-- Packing a value that is no function. -/
theorem isAdditive_pack {v : Value} (hv : ∀ c, v ≠ .function c) : (pack v).IsAdditive := by
  unfold pack
  split
  · exact isAdditive_pure _
  · exact absurd rfl (hv _)
  · exact isAdditive_fail _
  · split
    · refine (isAdditive_query .config).bind fun config => ?_
      split
      · exact (isAdditive_packNumber _ _).bind fun _ => isAdditive_pure _
      · exact (isAdditive_packData _).bind fun _ => isAdditive_pure _
    · exact (isAdditive_packData _).bind fun _ => isAdditive_pure _

/-- Taking in what the host sent. -/
theorem isAdditive_unpack (p : Parcel) : (unpack p).IsAdditive := by
  cases p with
  | data text => exact (isAdditive_ofExcept _).bind fun _ => isAdditive_pure _
  | reference id => exact (isAdditive_change rfl).bind fun _ => isAdditive_pure _
  | wrapped key =>
    refine .bind (isAdditive_change rfl) fun r => ?_
    cases r <;> simp

end Border

/-! ### Numbers -/

namespace Value

variable {v : Value} {key : NumberKey} {j d : Json} {o : Obj}

/-- The text of a number reads as a number, and what the host makes of that is what the
number stands for. -/
theorem exists_number (hkey : v.numberKey? = some key) (hj : v.toJson = .ok j)
    (hd : Json.parse j.render = .ok d) :
    ∃ o, d.number? = some o ∧ ∀ w : World, w.Shows v o := by
  -- an integer and a double are numbers; nothing else has a key
  cases v with
  | int i =>
    cases hj
    have hlow := i.inRange.1
    have hhigh := i.inRange.2
    have hparse : Json.parse (Json.ofFixnum i).render = .ok (.int i.val) :=
      Json.parse_intText hlow (by omega)
    obtain rfl := Except.ok.inj (hparse.symm.trans hd)
    exact ⟨.int i, by rw [Json.number?, Fixnum.ofInt?_val], fun w => rfl⟩
  | float x =>
    obtain ⟨hfinite, rfl⟩ : ∃ hfinite, j = .float x hfinite := by
      unfold toJson Json.ofFloat? at hj
      by_cases hfinite : x.isFinite = true
      · rw [dif_pos hfinite] at hj
        cases hj
        exact ⟨hfinite, rfl⟩
      · rw [dif_neg hfinite] at hj
        cases hj
    obtain ⟨c, cs, hcs, hc⟩ := Json.head_jsonText x
    have hnumber : d.IsNumber := Json.isNumber_of_parse hcs hc hd
    cases d with
    | int i =>
      refine ⟨_, rfl, fun w => ?_⟩
      show Obj.isNumber _ = true
      split <;> rfl
    | float y _ => exact ⟨_, rfl, fun w => rfl⟩
    | _ => exact hnumber.elim
  | _ => cases hkey

/-- The object of a number that is remembered is what the number stands for. -/
theorem shows_of_crosses (hkey : v.numberKey? = some key) (h : key.Crosses o) (w : World) :
    w.Shows v o := by
  obtain ⟨v', j, text, d, hkey', hj, htext, hparse, hobject⟩ := h
  unfold Json.toText at htext
  split at htext
  · cases htext
    obtain ⟨o', hnumber, hshows⟩ := exists_number hkey' hj hparse
    obtain rfl := hobject o' hnumber
    have hv' := hshows w
    -- equal texts come from equal numbers, or from an integer and a double that the text tells
    -- apart
    cases v with
    | int i =>
      cases hkey
      cases v' <;> cases hkey'
      exact hv'
    | float x =>
      cases v' with
      | float y => exact hv'
      | int i =>
        cases hkey
        cases hkey'
      | _ => cases hkey'
    | _ => cases hkey
  · cases htext

end Value

/-! ### Data -/

namespace Host

variable {v : Value} {j d : Json}

/-- What the host makes of the text of plain data is what this stands for. -/
theorem adds_ofDatum (hj : v.toJson = .ok j) (hd : Json.parse j.render = .ok d) :
    (ofDatum d).Adds w fun o w₁ => w₁.Shows v o := by
  -- numbers are made of their text, through the cache or without it
  have hnumber : ∀ key, v.numberKey? = some key →
      (ofDatum d).Adds w fun o w₁ => w₁.Shows v o := by
    intro key hkey
    obtain ⟨o, ho, hshows⟩ := Value.exists_number hkey hj hd
    rw [Border.ofDatum_of_number? ho]
    exact adds_pure (hshows w)
  cases v with
  | null =>
    cases hj
    obtain rfl := Except.ok.inj ((show Json.parse "null" = .ok .null by cbv).symm.trans hd)
    exact adds_pure rfl
  | bool b =>
    cases hj
    cases b with
    | false =>
      obtain rfl := Except.ok.inj
        ((show Json.parse "false" = .ok (.bool false) by cbv).symm.trans hd)
      exact adds_pure rfl
    | true =>
      obtain rfl := Except.ok.inj
        ((show Json.parse "true" = .ok (.bool true) by cbv).symm.trans hd)
      exact adds_truth
  | int i => exact hnumber _ rfl
  | float x => exact hnumber _ rfl
  | text s =>
    cases hj
    obtain rfl := Except.ok.inj ((Json.parse_stringText s).symm.trans hd)
    have hobject : ofDatum (.text s) = make (.text s) := by rw [ofDatum, ofText]
    rw [hobject]
    exact (adds_make _).mono fun o w₁ _ ho => ⟨_, ho.1, ho.2.1⟩
  | list items =>
    obtain ⟨js, -, rfl⟩ : ∃ js, Value.toJsonIn items = .ok js ∧ j = .list js := by
      rw [Value.toJson] at hj
      cases hjs : Value.toJsonIn items with
      | error f =>
        rw [hjs] at hj
        cases hj
      | ok js =>
        rw [hjs] at hj
        cases hj
        exact ⟨js, rfl, rfl⟩
    obtain ⟨read, rfl⟩ := Json.exists_list_of_parse (Json.toList_render_list js) hd
    have hobject : ofDatum (.list read) = ofData read >>= fun os => make (.vector os) := by
      rw [ofDatum]
    rw [hobject]
    refine (isAdditive_ofData read).adds.bind fun os w₁ _ _ => ?_
    exact (adds_make _).mono fun o w₂ _ ho => ⟨_, os, ho.1, ho.2.1⟩
  | object fields =>
    obtain ⟨js, hjs, rfl⟩ : ∃ js, Value.toJsonOf fields = .ok js ∧ j = .object js := by
      rw [Value.toJson] at hj
      cases hjs : Value.toJsonOf fields with
      | error f =>
        rw [hjs] at hj
        cases hj
      | ok js =>
        rw [hjs] at hj
        cases hj
        exact ⟨js, rfl, rfl⟩
    cases fields with
    | nil =>
      cases hjs
      obtain rfl := Except.ok.inj
        ((show Json.parse "\x7b\x7d" = .ok (.object []) by cbv).symm.trans hd)
      exact adds_pure rfl
    | cons field fields =>
      obtain ⟨read, rfl⟩ := Json.exists_object_of_parse (Json.toList_render_object js) hd
      have hobject : ofDatum (.object read) = ofFields read >>= list := by rw [ofDatum]
      rw [hobject]
      refine (isAdditive_ofFields read).adds.bind fun os w₁ _ _ => ?_
      exact (adds_list os).mono fun o w₂ _ ho => ⟨os, ho⟩
  | handle _ | function _ | native _ => cases hj

/-- The text of plain data brings what this stands for. -/
theorem brings_data (hj : v.toJson = .ok j) (w : World) : w.Brings v (.data j.render) :=
  fun _ _ => (adds_readDatum _).bind fun _ _ _ hd => adds_ofDatum hj hd

/-- What a number stands for, its parcel brings. -/
theorem brings_reference {id : ObjectId}
    (h : ∀ w₁ o, w.GrowsTo w₁ → w₁.host.resolve? id = some o → w₁.Shows v o) :
    w.Brings v (.reference id) :=
  fun _ hg => (adds_resolve id).mono fun o w₂ hg₂ ho => h w₂ o (hg.trans hg₂) ho

/-- Parcels that bring values are received as objects that the values show. The induction is
on the values. -/
theorem adds_receiveAll {vs : List Value} {ps : List Parcel}
    (h : List.Forall₂ (fun v p => w.Brings v p) vs ps) :
    (receiveAll ps).Adds w fun os w₁ => List.Forall₂ (fun v o => w₁.Shows v o) vs os :=
  adds_mapM World.lasting_shows (h.imp fun _ _ hp => hp)

end Host

/-! ### Sending -/

/-- An object is the marker of what is wrapped under a key. -/
def Interpreter.IsMarker (i : Interpreter) (o : Obj) (key : Key) : Prop :=
  ∃ head index generation, i.heap.list? o = some [head, .int index, .int generation] ∧
    i.heap.Names head markerName ∧ Host.keyOf? index generation = some key

/-- A marker stays one as the interpreter grows. -/
theorem Interpreter.GrowsTo.isMarker {i j : Interpreter} {o : Obj} {key : Key} (hg : i.GrowsTo j)
    (h : i.IsMarker o key) : j.IsMarker o key := by
  obtain ⟨head, index, generation, hlist, hname, hkey⟩ := h
  exact ⟨head, index, generation, hg.heap.list? hlist, hg.heap.names hname, hkey⟩

namespace Host

/-- To send an object that only a reference stands for. -/
theorem adds_refer (o : Obj) :
    (refer o).Adds w fun p w₁ => ∃ id, p = .reference id ∧ w₁.host.resolve? id = some o :=
  (adds_retain o).bind fun id _ _ h => adds_pure ⟨id, rfl, h.1⟩

/-- A closure is sent by reference. -/
theorem adds_send_closure {a : Addr} {l : Lambda}
    (ha : w.host.heap.get? a = some (.closure l)) :
    (send (.ref a)).Adds w fun p w₁ =>
      ∃ id, p = .reference id ∧ w₁.host.resolve? id = some (.ref a) := by
  refine (adds_query .heap).bind fun h w₁ _ heq => ?_
  obtain ⟨rfl, rfl⟩ := heq
  simp only [Query.ask, Heap.shape_ref ha]
  exact adds_refer _

/-- A pair is sent by reference, unless it may be the marker of a wrapped object. -/
theorem adds_send_pair {a : Addr} {items : List Obj}
    (ha : w.host.heap.list? (.ref a) = some items)
    (hmarker : ∀ head i g, items ≠ [head, .int i, .int g]) :
    (send (.ref a)).Adds w fun p w₁ =>
      ∃ id, p = .reference id ∧ w₁.host.resolve? id = some (.ref a) := by
  obtain ⟨hlist, -⟩ := Heap.list?_iff.mp ha
  refine (adds_query .heap).bind fun h w₁ _ heq => ?_
  obtain ⟨rfl, rfl⟩ := heq
  cases hlist with
  | cons hpair htail =>
    simp only [Query.ask, Heap.shape_ref hpair, wrapped?, ha]
    split
    · rename_i hitems
      exact absurd (Option.some.inj hitems) (hmarker _ _ _)
    · exact adds_refer _

/-- What is taken for a wrapped object is the marker of one. -/
theorem adds_wrapped? (o : Obj) :
    (wrapped? w.host.heap o).Adds w fun r w₁ => ∀ key, r = some key → w₁.host.IsMarker o key := by
  unfold wrapped?
  split
  · rename_i head index generation hlist
    refine (adds_intern markerName).bind fun name w₁ hg hname => adds_pure fun key hkey => ?_
    split at hkey
    · rename_i heq
      have hsame : head = name := by
        obtain ⟨hnil, -⟩ | ⟨a, _, _, rfl, -⟩ := hname
        · exact absurd hnil (by decide)
        · cases head <;> simp [Obj.eq] at heq
          exact congrArg Obj.ref heq
      exact ⟨head, index, generation, hg.host.heap.list? hlist, hsame ▸ hname, hkey⟩
    · cases hkey
  · exact adds_pure fun key hkey => by cases hkey

/-- An object is sent as data, by reference, or as the wrapped object that it marks. -/
theorem adds_send (o : Obj) :
    (send o).Adds w fun p w₁ => (∃ text, p = .data text) ∨
      (∃ id, p = .reference id ∧ w₁.host.resolve? id = some o) ∨
      ∃ key, p = .wrapped key ∧ w₁.host.IsMarker o key := by
  -- what is no data is referred to
  have hrefer : ∀ w₁ : World, (refer o).Adds w₁ fun p w₂ => (∃ text, p = .data text) ∨
      (∃ id, p = .reference id ∧ w₂.host.resolve? id = some o) ∨
      ∃ key, p = .wrapped key ∧ w₂.host.IsMarker o key :=
    fun w₁ => (adds_refer o).mono fun p w₂ _ hp => .inr (.inl hp)
  refine (adds_query .heap).bind fun h w₁ _ heq => ?_
  obtain ⟨rfl, rfl⟩ := heq
  simp only [Query.ask]
  split
  · exact adds_pure (.inl ⟨_, rfl⟩)
  · exact adds_pure (.inl ⟨_, rfl⟩)
  · split
    · exact adds_pure (.inl ⟨_, rfl⟩)
    · exact hrefer _
  · exact adds_pure (.inl ⟨_, rfl⟩)
  · split
    · refine (adds_change (c := .intern truthName) rfl).bind fun t w₂ _ _ => ?_
      split
      · exact adds_pure (.inl ⟨_, rfl⟩)
      · exact hrefer _
    · exact hrefer _
  · refine (adds_wrapped? o).bind fun r w₂ _ hr => ?_
    cases r with
    | some key => exact adds_pure (.inr (.inr ⟨key, rfl, hr key rfl⟩))
    | none => exact hrefer _
  · exact hrefer _

end Host

/-! ### Packing -/

/-- From now on what is packed of a script value brings what it stands for. -/
def World.Packs (w : World) (v : Value) : Prop :=
  ∀ w₁, w.GrowsTo w₁ → (Border.pack v).Adds w₁ fun r w₂ => w₂.Brings v r.1

theorem World.lasting_packs (v : Value) : Lasting fun w => w.Packs v :=
  ⟨fun hg h w₁ hg₁ => h w₁ (hg.trans hg₁)⟩

namespace Border

variable {v : Value} {key : NumberKey} {j : Json}

/-- An object that is taken in is what its handle stands for. -/
theorem adds_adoptObject (o : Obj) :
    (adopt o).Adds w fun h w₁ => w₁.host.Promises h.id fun o' => o' = o := by
  refine (adds_retain o).bind fun id w₁ _ hid => (adds_adopt id).mono fun h w₂ _ hh => ?_
  rw [hh.1, hh.2]
  exact hid.2

/-- The handle of a number that has been made. -/
theorem adds_materialize (hkey : v.numberKey? = some key) (hj : v.toJson = .ok j) :
    (materialize j).Adds w fun h w₁ => w₁.host.Promises h.id fun o => ∀ w : World, w.Shows v o := by
  unfold materialize Json.toText
  split
  · refine (Host.adds_readDatum j.render).bind fun d w₁ _ hd => ?_
    obtain ⟨o, ho, hshows⟩ := Value.exists_number hkey hj hd
    rw [ofDatum_of_number? ho]
    exact (adds_adoptObject o).mono fun h w₂ _ hh => hh.imp fun o' ho' => ho' ▸ hshows
  · exact adds_fail _

/-- A cached number stands for an object that each world takes the number to show. -/
theorem adds_packNumber (hkey : v.numberKey? = some key) :
    (packNumber key v).Adds w fun h w₁ =>
      w₁.host.Promises h.id fun o => ∀ w : World, w.Shows v o := by
  unfold packNumber
  cases hj : v.toJson with
  | error f => exact adds_fail f
  | ok j =>
    refine (adds_recallNumber key).bind fun cached w₁ _ hcached => ?_
    cases cached with
    | some h =>
      exact adds_pure ((hcached h rfl).imp fun o ho => Value.shows_of_crosses hkey ho)
    | none =>
      refine (adds_materialize hkey hj).bind fun h w₂ _ hh =>
        (adds_change rfl).bind fun _ w₃ hg _ => adds_pure ?_
      exact hh.of_ages hg.host.ages fun o ho => ho

/-- Packed data bring the value that they were. -/
theorem adds_packData (v : Value) : (packData v).Adds w fun p w₁ => w₁.Brings v p := by
  unfold packData
  cases hj : v.toJson with
  | error f => exact adds_fail f
  | ok j =>
    change (ofExcept j.toText >>= fun text => pure (Parcel.data text)).Adds w _
    unfold Json.toText
    split
    · exact adds_pure (Host.brings_data hj w)
    · exact adds_fail _

/-- What is packed of a value that is no function brings what the value stands for. -/
theorem adds_pack (hv : ∀ c, v ≠ .function c) :
    (pack v).Adds w fun r w₁ => w₁.Brings v r.1 := by
  have hdata : (packData v >>= fun p => pure (p, [])).Adds w
      fun (r : Parcel × List Handle) w₁ => w₁.Brings v r.1 :=
    (adds_packData v).bind fun p _ _ hp => adds_pure hp
  -- a number goes through the cache
  have hnumber : ∀ key, v.numberKey? = some key → (packNumberOrData key v).Adds w
      fun r w₁ => w₁.Brings v r.1 := by
    intro key hkey
    refine (adds_query .config).bind fun config w₁ _ h => ?_
    obtain ⟨rfl, rfl⟩ := h
    split
    · refine (adds_packNumber hkey).bind fun h w₂ _ hh => adds_pure ?_
      refine Host.brings_reference fun w₃ o hg ho => ?_
      exact hh.2 o (hg.host.ages.resolve? hh.1 ho) w₃
    · exact hdata
  cases v with
  | handle h => exact adds_pure (Host.brings_reference fun _ _ _ ho => ho)
  | function c => exact absurd rfl (hv c)
  | native name => exact adds_fail _
  | int i => exact hnumber _ rfl
  | float x => exact hnumber _ rfl
  | null | bool _ | text _ | list _ | object _ => exact hdata

/-- Values that can be packed are packed as parcels that bring them. The induction is on the
values. -/
theorem adds_packAll {vs : List Value} (hvs : ∀ v ∈ vs, w.Packs v) :
    (packAll vs).Adds w fun ps w₁ => List.Forall₂ (fun v p => w₁.Brings v p) vs ps := by
  refine adds_mapM World.lasting_brings (List.forall₂_same.mpr fun v hv w₁ hg => ?_)
  exact (hvs v hv w₁ hg).bind fun r _ _ hr => adds_pure hr

end Border

/-- All values but functions pack. -/
@[simp] theorem World.packs {v : Value} (hv : ∀ c, v ≠ .function c) : w.Packs v :=
  fun _ _ => Border.adds_pack hv

end Crossing
