import Crossing.Proc.Action
import Mathlib.Data.List.Pairwise

/-!
# Kept objects and tracked handles

What the tables of the crossing keep to: the host's tables of kept objects, by number and by
identity, and the border's table of tracked handles.

- `Interpreter.Sound`: a number is given out once, and a heap object is known by the one number
  under which it is kept, `Interpreter.idOf?_ref_iff`;
- `Border.Sound`: an object has at most one tracked handle, serial numbers are
  given out once, and a name or number is remembered with one handle;
- `World.Sound`: all of them;
- `Interpreter.retain_cases`, `World.adopt_cases`, `Border.mem_track`: what the
  changes of these tables do.
-/

namespace Crossing

/-! ### Look-up by key -/

/-- Looking up a key in a list of pairs with different keys. -/
theorem find?_key_iff {κ α : Type} [BEq κ] [LawfulBEq κ] {l : List (κ × α)} {k : κ} {a : α}
    (hl : l.Pairwise fun e f => e.1 ≠ f.1) :
    (l.find? fun e => e.1 == k).map Prod.snd = some a ↔ (k, a) ∈ l := by
  induction l with
  | nil => simp
  | cons e l ih =>
    obtain ⟨hne, hl⟩ := List.pairwise_cons.mp hl
    -- the first entry has the key, or the search goes on behind it
    by_cases hk : e.1 = k
    · rw [List.find?_cons_of_pos (by simpa using hk)]
      constructor
      · intro h
        obtain rfl : e.2 = a := by simpa using h
        exact List.mem_cons.mpr (.inl (Prod.ext hk.symm rfl))
      · intro h
        rcases List.mem_cons.mp h with rfl | h
        · rfl
        · exact absurd hk (hne _ h)
    · rw [List.find?_cons_of_neg (by simpa using hk), ih hl, List.mem_cons]
      constructor
      · exact .inr
      · rintro (rfl | h)
        · exact absurd rfl hk
        · exact h

/-- Putting a pair in the place of those with its key. -/
theorem pairwise_put {κ α : Type} [BEq κ] [LawfulBEq κ] {l : List (κ × α)} (k : κ) (a : α)
    (hl : l.Pairwise fun e f => e.1 ≠ f.1) :
    ((k, a) :: l.filter fun e => e.1 != k).Pairwise fun e f => e.1 ≠ f.1 := by
  refine List.pairwise_cons.mpr ⟨fun e he hk => ?_, hl.filter _⟩
  have := (List.mem_filter.mp he).2
  simp [← hk] at this

/-- An entry that is put into an association list replaces the one under its key, and leaves
the others. -/
theorem mem_put {κ α : Type} [BEq κ] [LawfulBEq κ] {l : List (κ × α)} {k j : κ} {a b : α} :
    (j, b) ∈ ((k, a) :: l.filter fun e => e.1 != k) ↔ j = k ∧ b = a ∨ j ≠ k ∧ (j, b) ∈ l := by
  simp only [List.mem_cons, Prod.mk.injEq, List.mem_filter, bne_iff_ne, and_comm]

/-! ### Kept objects -/

namespace Obj

/-- References are the same to `eq` if they are equal. -/
theorem eq_iff_of_isHeap {o o' : Obj} (ho : o'.isHeap = true) : o.eq o' = true ↔ o = o' := by
  cases o' with
  | ref b => cases o <;> simp [eq]
  | _ => cases ho

end Obj

namespace Interpreter

/-- What the host's two tables of kept objects keep to: a number is given out once, a heap object
has one number, and each table has the heap objects of the other. -/
structure Sound (i : Interpreter) : Prop where
  ids : i.retained.Pairwise fun r s => r.1 ≠ s.1
  ids_le : ∀ r ∈ i.retained, r.1.val ≤ i.lastId
  addresses : i.identities.Pairwise fun e f => e.1 ≠ f.1
  mem_identities : ∀ {a id}, (a, id) ∈ i.identities ↔ (id, .ref a) ∈ i.retained

variable {i : Interpreter} {o o' : Obj} {id id' : ObjectId} {a : Addr}

/-- A number resolves to the object that it is retained under. -/
theorem resolve?_iff (hi : i.Sound) : i.resolve? id = some o ↔ (id, o) ∈ i.retained :=
  find?_key_iff hi.ids

/-- A number that resolves has been given out. -/
theorem le_of_resolve? (hi : i.Sound) (h : i.resolve? id = some o) : id.val ≤ i.lastId :=
  hi.ids_le _ ((resolve?_iff hi).mp h)

/-- The number that a heap object is known by is the one that it is kept under. -/
theorem idOf?_ref_iff (hi : i.Sound) :
    i.idOf? (.ref a) = some id ↔ i.resolve? id = some (.ref a) := by
  rw [resolve?_iff hi, ← hi.mem_identities]
  exact find?_key_iff hi.addresses

/-- A heap object is kept under one number at most. -/
theorem eq_of_resolve? (hi : i.Sound) (ho : o.isHeap = true) (h : i.resolve? id = some o)
    (h' : i.resolve? id' = some o) : id = id' := by
  cases o with
  | ref a =>
    rw [← idOf?_ref_iff hi] at h h'
    exact Option.some.inj (h.symm.trans h')
  | _ => cases ho

/-- An object that has a number is one that can be retained, and its number resolves to it.
-/
theorem idOf?_eq_some (hi : i.Sound) (h : i.idOf? o = some id) :
    o.isHeap = true ∧ i.resolve? id = some o := by
  cases o with
  | ref a => exact ⟨rfl, (idOf?_ref_iff hi).mp h⟩
  | _ => cases h

/-- An object without a number is retained under none. -/
theorem idOf?_eq_none (hi : i.Sound) (h : i.idOf? o = none) (ho : o.isHeap = true) :
    i.resolve? id ≠ some o := by
  intro hr
  cases o with
  | ref a =>
    rw [(idOf?_ref_iff hi).mpr hr] at h
    cases h
  | _ => cases ho

/-- To keep an object changes nothing if it is a heap object that is kept already;
else the object is kept under a new number. -/
theorem retain_cases (hi : i.Sound) (o : Obj) :
    (∃ id, o.isHeap = true ∧ i.resolve? id = some o ∧ i.retain o = (id, i)) ∨
      ((o.isHeap = true → ∀ id, i.resolve? id ≠ some o) ∧ i.retain o = i.keepNew o) := by
  cases h : i.idOf? o with
  | some id =>
    obtain ⟨ho, hr⟩ := idOf?_eq_some hi h
    exact .inl ⟨id, ho, hr, by rw [retain, h]⟩
  | none => exact .inr ⟨fun ho id => idOf?_eq_none hi h ho, by rw [retain, h]⟩

/-- Where an object is not kept yet, it can be kept under a new number. -/
theorem Sound.keepNew (hi : i.Sound) (hnew : o.isHeap = true → ∀ id, i.resolve? id ≠ some o) :
    (i.keepNew o).2.Sound := by
  -- the new number is above all that were given out
  have hfresh : ∀ r ∈ i.retained, r.1 ≠ ⟨i.lastId + 1⟩ := fun r hr heq => by
    have hle := hi.ids_le r hr
    rw [heq] at hle
    exact Nat.not_succ_le_self _ hle
  have hids : (i.keepNew o).2.retained.Pairwise fun r s => r.1 ≠ s.1 :=
    List.pairwise_cons.mpr ⟨fun r hr heq => hfresh r hr heq.symm, hi.ids⟩
  have hle : ∀ r ∈ (i.keepNew o).2.retained, r.1.val ≤ i.lastId + 1 := fun r hr => by
    rcases List.mem_cons.mp hr with rfl | hr
    · exact Nat.le_refl _
    · exact Nat.le_succ_of_le (hi.ids_le r hr)
  -- only references are known by their addresses
  cases o with
  | ref a =>
    refine ⟨hids, hle, List.pairwise_cons.mpr ⟨fun e he heq => ?_, hi.addresses⟩, fun {b id} => ?_⟩
    · obtain rfl : a = e.1 := heq
      exact hnew rfl e.2 ((resolve?_iff hi).mpr (hi.mem_identities.mp he))
    · simp only [Interpreter.keepNew, Obj.address?, List.mem_cons, Prod.mk.injEq, Obj.ref.injEq]
      rw [hi.mem_identities, and_comm]
  | nil | int _ | float _ =>
    refine ⟨hids, hle, hi.addresses, fun {b id} => ?_⟩
    simp [Interpreter.keepNew, Obj.address?, hi.mem_identities]

/-- To retain an object keeps both tables in step. -/
theorem Sound.retain (hi : i.Sound) (o : Obj) : (i.retain o).2.Sound := by
  obtain ⟨id, -, -, h⟩ | ⟨hnew, h⟩ := retain_cases hi o
  · rw [h]
    exact hi
  · rw [h]
    exact hi.keepNew hnew

/-- What is kept stays kept. -/
theorem resolve?_retain (hi : i.Sound) (o : Obj) (h : i.resolve? id = some o') :
    (i.retain o).2.resolve? id = some o' := by
  rw [resolve?_iff (hi.retain o)]
  obtain ⟨_, -, -, hr⟩ | ⟨-, hr⟩ := retain_cases hi o
  · rw [hr]
    exact (resolve?_iff hi).mp h
  · rw [hr]
    exact List.mem_cons_of_mem _ ((resolve?_iff hi).mp h)

/-- The object is kept under the number that is given. -/
theorem resolve?_retain_self (hi : i.Sound) (o : Obj) :
    (i.retain o).2.resolve? (i.retain o).1 = some o := by
  rw [resolve?_iff (hi.retain o)]
  obtain ⟨_, -, hk, hr⟩ | ⟨-, hr⟩ := retain_cases hi o
  · rw [hr]
    exact (resolve?_iff hi).mp hk
  · rw [hr]
    exact List.mem_cons_self

/-- A number that is given although it is in use is that of the object. -/
theorem isHeap_of_resolve?_retain (hi : i.Sound) (h : i.resolve? (i.retain o).1 = some o') :
    o.isHeap = true := by
  obtain ⟨_, ho, -, -⟩ | ⟨-, hr⟩ := retain_cases hi o
  · exact ho
  · rw [hr] at h
    exact absurd (le_of_resolve? hi h) (Nat.not_succ_le_self _)

/-- A heap object that is kept keeps its number. -/
theorem retain_of_resolve? (hi : i.Sound) (ho : o.isHeap = true) (h : i.resolve? id = some o) :
    i.retain o = (id, i) := by
  obtain ⟨id', -, h', hr⟩ | ⟨hnew, -⟩ := retain_cases hi o
  · rw [hr, eq_of_resolve? hi ho h' h]
  · exact absurd h (hnew ho id)

/-- What is kept under the number that is given is the object. -/
theorem eq_of_resolve?_retain (hi : i.Sound) (h : i.resolve? (i.retain o).1 = some o') :
    o' = o := by
  have := resolve?_retain hi o h
  rw [resolve?_retain_self hi o] at this
  exact (Option.some.inj this).symm

/-- To stop keeping an object takes it out of both tables. -/
theorem Sound.drop (hi : i.Sound) (id : ObjectId) :
    { i with
      retained := (Interpreter.drop (i.retained, i.identities) id).1
      identities := (Interpreter.drop (i.retained, i.identities) id).2 : Interpreter }.Sound := by
  refine ⟨hi.ids.filter _, fun r hr => hi.ids_le r (List.mem_filter.mp hr).1, ?_, ?_⟩
  · dsimp only [Interpreter.drop]
    -- the number may be released twice, and then there is nothing to drop
    split
    · exact hi.addresses.filter _
    · exact hi.addresses
  -- an object goes on being known by its number unless that is the one that goes
  · intro b id'
    dsimp only [Interpreter.drop]
    rw [List.mem_filter, bne_iff_ne]
    split
    · rename_i a ha
      obtain ⟨⟨id₁, o⟩, hfound, ho⟩ := Option.bind_eq_some_iff.mp ha
      obtain rfl : id₁ = id := by simpa using List.find?_some hfound
      obtain rfl : o = .ref a := by
        cases o <;> cases ho
        rfl
      have hkept : i.resolve? id₁ = some (.ref a) := by rw [resolve?, hfound]; rfl
      rw [List.mem_filter, bne_iff_ne, hi.mem_identities]
      refine and_congr_right fun hmem => not_congr ⟨?_, ?_⟩
      · rintro rfl
        exact eq_of_resolve? hi rfl ((resolve?_iff hi).mpr hmem) hkept
      · rintro rfl
        exact Obj.ref.inj (Option.some.inj (((resolve?_iff hi).mpr hmem).symm.trans hkept))
    · rename_i hnone
      rw [hi.mem_identities]
      refine ⟨fun hmem => ⟨hmem, ?_⟩, And.left⟩
      rintro rfl
      obtain ⟨r, hfound, hr⟩ := Option.map_eq_some_iff.mp ((resolve?_iff hi).mpr hmem)
      rw [hfound, Option.bind_some, hr] at hnone
      cases hnone

/-- To drop numbers one after the other keeps both tables in step. The induction is on the
numbers. -/
theorem Sound.foldl_drop (hi : i.Sound) (ids : List ObjectId) :
    { i with
      retained := (ids.foldl Interpreter.drop (i.retained, i.identities)).1
      identities := (ids.foldl Interpreter.drop (i.retained, i.identities)).2 : Interpreter }.Sound := by
  induction ids generalizing i with
  | nil => exact hi
  | cons id ids ih => exact ih (hi.drop id)

/-- To release numbers keeps both tables in step. -/
theorem Sound.release (hi : i.Sound) (ids : List ObjectId) : (i.release ids).Sound := by
  obtain ⟨hids, hle, haddresses, hmem⟩ := hi.foldl_drop ids
  exact ⟨hids, hle, haddresses, hmem⟩

theorem resolve?_release (hi : i.Sound) {ids : List ObjectId} (hid : id ∉ ids) :
    (i.release ids).resolve? id = i.resolve? id := by
  refine Option.ext fun o => ?_
  rw [resolve?_iff (hi.release ids), resolve?_iff hi, retained_release, List.mem_filter]
  simp [hid]

/-- A number that is released resolves no more. -/
theorem resolve?_release_of_mem (hi : i.Sound) {ids : List ObjectId} (hid : id ∈ ids) :
    (i.release ids).resolve? id = none := by
  refine Option.eq_none_iff_forall_ne_some.mpr fun o ho => ?_
  rw [resolve?_iff (hi.release ids), retained_release, List.mem_filter] at ho
  simp [hid] at ho

end Interpreter

/-! ### Tracked handles -/

namespace Border

/-- What the border's table of tracked handles keeps to. -/
structure Sound (b : Border) : Prop where
  ids : b.tracked.Pairwise fun t u => t.id.val < u.id.val
  serials : ∀ t ∈ b.tracked, t.serial ≤ b.lastSerial
  symbolKeys : b.symbolCache.Pairwise fun e f => e.1 ≠ f.1
  symbolSerials : ∀ e ∈ b.symbolCache, e.2.serial ≤ b.lastSerial
  numberKeys : b.numberCache.Pairwise fun e f => e.1 ≠ f.1
  numberSerials : ∀ e ∈ b.numberCache, e.2.serial ≤ b.lastSerial

variable {b : Border} {t u : Tracked} {ts : List Tracked} {id : ObjectId} {h g : Handle}

/-- Numbers are the naturals below them. -/
theorem ObjectId.ext_val {i j : ObjectId} (h : i.val = j.val) : i = j := by
  cases i
  cases j
  exact congrArg _ h

/-- There is one entry for an object. -/
theorem eq_of_id_eq (hts : ts.Pairwise fun t u => t.id.val < u.id.val) (ht : t ∈ ts)
    (hu : u ∈ ts) (hid : t.id = u.id) : t = u := by
  have : Std.Symm fun t u : Tracked => t.id ≠ u.id := ⟨fun _ _ h => h.symm⟩
  by_contra hne
  have hpair : ts.Pairwise fun t u => t.id ≠ u.id := by
    refine hts.imp fun {t u} hlt heq => ?_
    rw [heq] at hlt
    exact Nat.lt_irrefl _ hlt
  exact hpair.forall ht hu hne hid

/-- A record is found under its number, which no other has. -/
theorem record?_iff (hb : b.Sound) : b.record? id = some t ↔ t ∈ b.tracked ∧ t.id = id := by
  constructor
  · intro h
    exact ⟨List.mem_of_find?_eq_some h, by simpa using List.find?_some h⟩
  · rintro ⟨ht, rfl⟩
    cases h : b.record? t.id with
    | none =>
      rw [record?, List.find?_eq_none] at h
      exact absurd BEq.rfl (h t ht)
    | some u =>
      have hu : u.id = t.id := by simpa using List.find?_some h
      rw [eq_of_id_eq hb.ids (List.mem_of_find?_eq_some h) ht hu]

/-- An entry is put in the place of the one for its object; the others stay. -/
theorem mem_track (hts : ts.Pairwise fun t u => t.id.val < u.id.val) :
    u ∈ track t ts ↔ u = t ∨ u ∈ ts ∧ u.id ≠ t.id := by
  induction ts with
  | nil => simp [track]
  | cons s ts ih =>
    obtain ⟨hlt, hts⟩ := List.pairwise_cons.mp hts
    unfold track
    -- the record goes in front, in place of the one with its number, or further back
    split
    · rename_i hid
      rw [List.mem_cons, List.mem_cons]
      constructor
      · rintro (rfl | hu)
        · exact .inl rfl
        · refine .inr ⟨.inr hu, fun heq => ?_⟩
          have := hlt u hu
          rw [hid, heq] at this
          exact Nat.lt_irrefl _ this
      · rintro (rfl | ⟨rfl | hu, hne⟩)
        · exact .inl rfl
        · exact absurd hid hne
        · exact .inr hu
    · rename_i hid
      split
      · rename_i hlt'
        rw [List.mem_cons]
        refine or_congr_right ⟨fun hu => ⟨hu, fun heq => ?_⟩, And.left⟩
        rcases List.mem_cons.mp hu with rfl | hu
        · exact hid heq
        · have := hlt u hu
          rw [heq] at this
          exact Nat.lt_asymm hlt' this
      · rw [List.mem_cons, List.mem_cons, ih hts]
        constructor
        · rintro (rfl | rfl | ⟨hu, hne⟩)
          · exact .inr ⟨.inl rfl, hid⟩
          · exact .inl rfl
          · exact .inr ⟨.inr hu, hne⟩
        · rintro (rfl | ⟨rfl | hu, hne⟩)
          · exact .inr (.inl rfl)
          · exact .inl rfl
          · exact .inr (.inr ⟨hu, hne⟩)

/-- Records go in by their numbers, in order. The induction is on the records that are
there. -/
theorem pairwise_track (t : Tracked) (hts : ts.Pairwise fun t u => t.id.val < u.id.val) :
    (track t ts).Pairwise fun t u => t.id.val < u.id.val := by
  induction ts with
  | nil => exact List.pairwise_singleton _ _
  | cons s ts ih =>
    obtain ⟨hlt, hts'⟩ := List.pairwise_cons.mp hts
    unfold track
    split
    · rename_i hid
      exact List.pairwise_cons.mpr ⟨fun u hu => hid ▸ hlt u hu, hts'⟩
    · rename_i hid
      split
      · rename_i hlt'
        refine List.pairwise_cons.mpr ⟨fun u hu => ?_, hts⟩
        rcases List.mem_cons.mp hu with rfl | hu
        · exact hlt'
        · exact Nat.lt_trans hlt' (hlt u hu)
      · rename_i hge
        refine List.pairwise_cons.mpr ⟨fun u hu => ?_, ih hts'⟩
        rcases (mem_track hts').mp hu with rfl | ⟨hu, -⟩
        · have hne : s.id.val ≠ u.id.val := fun heq => hid (ObjectId.ext_val heq)
          omega
        · exact hlt u hu

/-- Whether a handle is the one that is tracked for its object. -/
def Tracks (b : Border) (h : Handle) : Prop := ∃ t ∈ b.tracked, t.handle = h

/-- A number has one tracked handle. -/
theorem eq_of_tracks (hb : b.Sound) (hh : b.Tracks h) (hg : b.Tracks g) (hid : h.id = g.id) :
    h = g := by
  obtain ⟨t, ht, rfl⟩ := hh
  obtain ⟨u, hu, rfl⟩ := hg
  rw [eq_of_id_eq hb.ids ht hu hid]

/-- A tracked handle has a serial that was given out. -/
theorem serial_le_of_tracks (hb : b.Sound) (hh : b.Tracks h) : h.serial ≤ b.lastSerial := by
  obtain ⟨t, ht, rfl⟩ := hh
  exact hb.serials t ht

/-- The entry of a tracked handle. -/
theorem exists_record?_of_tracks (hb : b.Sound) (hh : b.Tracks h) :
    ∃ t, b.record? h.id = some t ∧ t.handle = h := by
  obtain ⟨t, ht, rfl⟩ := hh
  exact ⟨t, (record?_iff hb).mpr ⟨ht, rfl⟩, rfl⟩

/-- The name of a tracked handle stands in its entry. -/
theorem nameOf?_of_mem (hb : b.Sound) (ht : t ∈ b.tracked) : b.nameOf? t.handle = t.name := by
  have he : b.record? t.id = some t := (record?_iff hb).mpr ⟨ht, rfl⟩
  simp only [nameOf?, Tracked.handle, he, if_true]

/-! ### Names -/

/-- What recording a name for a tracked handle does. -/
theorem recordName_of_mem (hb : b.Sound) (ht : t ∈ b.tracked) (name : String) :
    b.recordName t.handle name =
      if t.name = none then { b with tracked := track { t with name := some name } b.tracked }
      else b := by
  have he : b.record? t.id = some t := (record?_iff hb).mpr ⟨ht, rfl⟩
  simp only [recordName, Tracked.handle, he, true_and]

/-- To record a name keeps the records in order. -/
theorem Sound.recordName (hb : b.Sound) (hh : b.Tracks h) (name : String) :
    (b.recordName h name).Sound := by
  obtain ⟨t, ht, rfl⟩ := hh
  rw [recordName_of_mem hb ht]
  split
  · refine { hb with ids := pairwise_track _ hb.ids, serials := fun u hu => ?_ }
    rcases (mem_track hb.ids).mp hu with rfl | ⟨hu, -⟩
    · exact hb.serials t ht
    · exact hb.serials u hu
  · exact hb

/-- The same handles are tracked once a name has been recorded. -/
theorem tracks_recordName_iff (hb : b.Sound) (hh : b.Tracks h) (name : String) :
    (b.recordName h name).Tracks g ↔ b.Tracks g := by
  obtain ⟨t, ht, rfl⟩ := hh
  rw [recordName_of_mem hb ht]
  split
  · constructor
    · rintro ⟨u, hu, rfl⟩
      rcases (mem_track hb.ids).mp hu with rfl | ⟨hu, -⟩
      · exact ⟨t, ht, rfl⟩
      · exact ⟨u, hu, rfl⟩
    · rintro ⟨u, hu, rfl⟩
      by_cases hid : u.id = t.id
      · refine ⟨_, (mem_track hb.ids).mpr (.inl rfl), ?_⟩
        rw [eq_of_id_eq hb.ids hu ht hid]
        rfl
      · exact ⟨u, (mem_track hb.ids).mpr (.inr ⟨hu, hid⟩), rfl⟩
  · exact Iff.rfl

/-- The first name stays. -/
theorem nameOf?_recordName_self (hb : b.Sound) (hh : b.Tracks h) (name : String) :
    (b.recordName h name).nameOf? h = some ((b.nameOf? h).getD name) := by
  have hs := hb.recordName hh name
  obtain ⟨t, ht, rfl⟩ := hh
  rw [nameOf?_of_mem hb ht]
  rw [recordName_of_mem hb ht] at hs ⊢
  split at hs
  · rename_i hnone
    rw [if_pos hnone, hnone]
    exact nameOf?_of_mem (t := { t with name := some name }) hs
      ((mem_track hb.ids).mpr (.inl rfl))
  · rename_i hsome
    rw [if_neg hsome, nameOf?_of_mem hb ht]
    obtain ⟨n, hn⟩ := Option.ne_none_iff_exists'.mp hsome
    rw [hn]
    rfl

/-- Other names stay. -/
theorem nameOf?_recordName_other (hb : b.Sound) (hh : b.Tracks h) (hg : b.Tracks g)
    (hne : g ≠ h) (name : String) : (b.recordName h name).nameOf? g = b.nameOf? g := by
  have hs := hb.recordName hh name
  obtain ⟨t, ht, rfl⟩ := hh
  obtain ⟨u, hu, rfl⟩ := hg
  rw [nameOf?_of_mem hb hu]
  refine nameOf?_of_mem hs ?_
  rw [recordName_of_mem hb ht]
  split
  · refine (mem_track hb.ids).mpr (.inr ⟨hu, fun hid => hne ?_⟩)
    rw [eq_of_id_eq hb.ids hu ht hid]
  · exact hu

end Border

/-! ### Live handles -/

namespace World

variable {w : World} {h g : Handle} {id : ObjectId}

/-- What all tables keep to. -/
structure Sound (w : World) : Prop where
  host : w.host.Sound
  border : w.border.Sound

/-- A handle is live if it is a root. -/
theorem isLive_iff : w.isLive h = true ↔ h ∈ w.roots := by
  simp [isLive]

/-- A handle is not live if it is no root. -/
theorem isLive_eq_false_iff : w.isLive h = false ↔ h ∉ w.roots := by
  simp [isLive]

/-- An object with a live handle is taken in by this handle. -/
theorem adopt_of_mem_roots (hw : w.Sound) (ht : w.border.Tracks h) (hh : h ∈ w.roots) :
    w.adopt h.id = (h, w.hold [h]) := by
  obtain ⟨t, he, rfl⟩ := Border.exists_record?_of_tracks hw.border ht
  rw [adopt, he]
  exact if_pos (isLive_iff.mpr hh)

/-- An object without a live handle gets a new one. -/
theorem adopt_of_forall_ne (h : ∀ g ∈ w.roots, g.id ≠ id) : w.adopt id = w.makeHandle id := by
  unfold adopt
  split
  · rename_i t he
    have hid : t.id = id := by simpa using List.find?_some he
    exact if_neg fun hlive => h t.handle (isLive_iff.mp hlive) hid
  · rfl

/-- A new handle has a new serial, and its record goes in by its number. -/
theorem Sound.makeHandle (hw : w.Sound) (id : ObjectId) : (w.makeHandle id).2.Sound where
  host := hw.host
  border := {
    ids := Border.pairwise_track _ hw.border.ids
    serials := fun t ht => by
      rcases (Border.mem_track hw.border.ids).mp ht with rfl | ⟨ht, -⟩
      · exact Nat.le_refl _
      · exact Nat.le_succ_of_le (hw.border.serials t ht)
    symbolKeys := hw.border.symbolKeys
    symbolSerials := fun e he => Nat.le_succ_of_le (hw.border.symbolSerials e he)
    numberKeys := hw.border.numberKeys
    numberSerials := fun e he => Nat.le_succ_of_le (hw.border.numberSerials e he) }

theorem tracks_makeHandle_self (hw : w.Sound) (id : ObjectId) :
    (w.makeHandle id).2.border.Tracks (w.makeHandle id).1 :=
  ⟨_, (Border.mem_track hw.border.ids).mpr (.inl rfl), rfl⟩

theorem nameOf?_makeHandle_self (hw : w.Sound) (id : ObjectId) :
    (w.makeHandle id).2.border.nameOf? (w.makeHandle id).1 = none :=
  Border.nameOf?_of_mem (t := ⟨id, w.border.lastSerial + 1, none⟩) (hw.makeHandle id).border
    ((Border.mem_track hw.border.ids).mpr (.inl rfl))

/-- The handles of other objects stay tracked, under the same names. -/
theorem tracks_makeHandle (hw : w.Sound) (hg : w.border.Tracks g) (hne : g.id ≠ id) :
    (w.makeHandle id).2.border.Tracks g ∧
      (w.makeHandle id).2.border.nameOf? g = w.border.nameOf? g := by
  obtain ⟨t, ht, rfl⟩ := hg
  have hmem : t ∈ (w.makeHandle id).2.border.tracked :=
    (Border.mem_track hw.border.ids).mpr (.inr ⟨ht, hne⟩)
  refine ⟨⟨t, hmem, rfl⟩, ?_⟩
  rw [Border.nameOf?_of_mem hw.border ht, Border.nameOf?_of_mem (hw.makeHandle id).border hmem]

/-! ### Sweeps -/

/-- What a sweep releases. -/
theorem mem_unreachable_iff :
    id ∈ w.unreachable ↔
      ∃ t ∈ w.border.tracked, t.id = id ∧ t.handle ∉ w.roots ∧ id ∉ w.border.pinned := by
  simp only [unreachable, List.mem_map, List.mem_filter, Bool.and_eq_true, Bool.not_eq_true',
    isLive_eq_false_iff, List.contains_eq_mem, decide_eq_false_iff_not]
  constructor
  · rintro ⟨t, ⟨ht, hlive, hpin⟩, rfl⟩
    exact ⟨t, ht, rfl, hlive, hpin⟩
  · rintro ⟨t, ht, rfl, hlive, hpin⟩
    exact ⟨t, ⟨ht, hlive, hpin⟩, rfl⟩

/-- A sweep does not release an object with a live handle. -/
theorem id_notMem_unreachable (hw : w.Sound) (ht : w.border.Tracks h) (hh : h ∈ w.roots) :
    h.id ∉ w.unreachable := by
  intro hmem
  obtain ⟨u, hu, hid, hlive, -⟩ := mem_unreachable_iff.mp hmem
  refine hlive ?_
  rwa [Border.eq_of_tracks hw.border ⟨u, hu, rfl⟩ ht hid]

theorem roots_sweep : w.sweep.2.roots = w.roots := by
  simp only [sweep]
  split <;> rfl

theorem script_sweep : w.sweep.2.script = w.script := by
  simp only [sweep]
  split <;> rfl

theorem border_sweep : w.sweep.2.border = { w.border with
    tracked := w.border.tracked.filter fun t => !w.unreachable.contains t.id
    symbolCache := w.border.symbolCache.filter fun e => w.isLive e.2
    numberCache := w.border.numberCache.filter fun e => w.isLive e.2
    released := w.border.released + w.unreachable.length } := by
  simp only [sweep]
  split <;> rfl

theorem host_sweep : w.sweep.2.host =
    if w.unreachable.isEmpty then w.host else w.host.release w.unreachable := by
  simp only [sweep]
  split <;> rfl

/-- A sweep keeps all tables in order. -/
theorem Sound.sweep (hw : w.Sound) : w.sweep.2.Sound where
  host := by
    rw [host_sweep]
    split
    · exact hw.host
    · exact hw.host.release _
  border := by
    rw [border_sweep]
    exact {
      ids := hw.border.ids.filter _
      serials := fun t ht => hw.border.serials t (List.mem_filter.mp ht).1
      symbolKeys := hw.border.symbolKeys.filter _
      symbolSerials := fun e he => hw.border.symbolSerials e (List.mem_filter.mp he).1
      numberKeys := hw.border.numberKeys.filter _
      numberSerials := fun e he => hw.border.numberSerials e (List.mem_filter.mp he).1 }

/-- Live handles stay tracked, under the same names. -/
theorem tracks_sweep (hw : w.Sound) (ht : w.border.Tracks h) (hh : h ∈ w.roots) :
    w.sweep.2.border.Tracks h ∧ w.sweep.2.border.nameOf? h = w.border.nameOf? h := by
  have hid := id_notMem_unreachable hw ht hh
  obtain ⟨t, ht, rfl⟩ := ht
  change t.id ∉ w.unreachable at hid
  have hmem : t ∈ w.sweep.2.border.tracked := by
    rw [border_sweep, List.mem_filter]
    exact ⟨ht, by simpa using hid⟩
  refine ⟨⟨t, hmem, rfl⟩, ?_⟩
  rw [Border.nameOf?_of_mem hw.border ht, Border.nameOf?_of_mem hw.sweep.border hmem]

/-- What a sweep does not release stays kept, and what it releases is gone. -/
theorem resolve?_sweep (hw : w.Sound) :
    w.sweep.2.host.resolve? id = if id ∈ w.unreachable then none else w.host.resolve? id := by
  rw [host_sweep]
  split
  · rename_i hempty
    rw [List.isEmpty_iff.mp hempty, if_neg List.not_mem_nil]
  · split
    · rename_i hid
      exact Interpreter.resolve?_release_of_mem hw.host hid
    · rename_i hid
      exact Interpreter.resolve?_release hw.host hid

end World

end Crossing
