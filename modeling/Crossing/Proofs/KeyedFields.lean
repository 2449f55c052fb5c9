import Crossing.Proofs.Passages
import Crossing.Proofs.PlainData
import Crossing.Proofs.ReservedNames

/-!
# Fields and keywords

What the host makes of an object is a list of keywords and values in turn. The keyword that
script code is given for the name of a field is the one in the list, as long as it is spelled
like the name.

- `hostName_keyword_iff`: the names that keywords are spelled like;
- `Value.IsPlainData`: values that cross as data, and what their texts read as;
- `Border.succeeds_keyword`: the keyword of a name is looked up;
- `Host.succeeds_plistGet`: it finds the value of the field;
- `World.ReturnsAs`: what comes back of what the host has made of data;
- `Border.succeeds_plist`: what is built of keywords and values is what the host makes of the
  object;
- `fields_are_found_by_keyword`: both, for all objects.
-/

namespace Crossing

open Proc

variable {w w₁ : World} {v r : Value} {o x : Obj} {a : Addr} {name : String} {j k : Json}
  {fields : List (String × Value)}

/-! ### Names -/

/-- The keywords that are spelled like their names. -/
theorem hostName_keyword_iff {s : String} :
    hostName s .keyword = ":" ++ s ↔ '_' ∉ s.toList ∧ isKeywordName s = false := by
  have hlength : (canonicalName s).length = s.length := by
    rw [← String.length_toList, canonicalName, String.toList_map, List.length_map,
      String.length_toList]
  simp only [hostName]
  constructor
  · intro h
    split at h
    · -- it is not longer than the name
      have hlonger := congrArg String.length h
      rw [hlength, String.length_append] at hlonger
      exact absurd hlonger (by simp)
    · rename_i hcolon
      have hself := String.append_right_inj _ |>.mp h
      exact ⟨canonicalName_eq_self_iff.mp hself, by rw [hself] at hcolon; simpa using hcolon⟩
  · rintro ⟨hdash, hcolon⟩
    rw [canonicalName_eq_self_iff.mpr hdash, if_neg (by simp [hcolon])]

/-! ### Plain data -/

namespace Value

/-- Values that cross as data: without identity and NUL, finite, with their fields in order, and
not nested too deep. -/
structure IsPlainData (v : Value) : Prop where
  crosses : ∀ p ∈ v.parts, p.crosses = true
  ordered : ∀ p ∈ v.parts, p.isOrdered = true
  nesting : v.nesting < Json.maxNesting

/-- The text of the datum of a value reads as another datum. -/
def ReadsAs (v : Value) (k : Json) : Prop := ∃ j, v.toJson = .ok j ∧ Json.parse j.render = .ok k

/-- A value is read as one datum only. -/
theorem ReadsAs.unique {k' : Json} (h : v.ReadsAs k) (h' : v.ReadsAs k') : k' = k := by
  obtain ⟨j, hj, hparse⟩ := h
  obtain ⟨j', hj', hparse'⟩ := h'
  obtain rfl := Except.ok.inj (hj.symm.trans hj')
  exact Except.ok.inj (hparse'.symm.trans hparse)

/-- A plain value has a text that is read back as some datum. -/
theorem IsPlainData.exists_data (h : v.IsPlainData) : ∃ j, v.toJson = .ok j ∧
    j.isNulFree = true ∧ j.isDatum = true ∧ j.nesting < Json.maxNesting := by
  obtain ⟨j, hj, hnul⟩ := exists_toText h.crosses
  refine ⟨j, hj, hnul, ?_, by rw [nesting_of_toJson hj]; exact h.nesting⟩
  rw [isDatum_of_toJson hj]
  exact List.all_eq_true.mpr h.ordered

/-- A plain value crosses. -/
theorem IsPlainData.crosses_host (h : v.IsPlainData) : w.Crosses v := by
  obtain ⟨j, hj, hnul, hdatum, hnest⟩ := h.exists_data
  exact World.crosses_data hj hnul hdatum hnest

theorem mem_partsOf {p q : Value} : ∀ {fields : List (String × Value)},
    (name, p) ∈ fields → q ∈ p.parts → q ∈ partsOf fields
  | (n, u) :: fields, hmem, hq => by
    rw [partsOf]
    obtain heq | hmem := List.mem_cons.mp hmem
    · cases heq
      exact List.mem_append_left _ hq
    · exact List.mem_append_right _ (mem_partsOf hmem hq)

theorem nesting_le_nestingOf : ∀ {fields : List (String × Value)},
    (name, v) ∈ fields → v.nesting ≤ nestingOf fields
  | (n, u) :: fields, hmem => by
    rw [nestingOf]
    obtain heq | hmem := List.mem_cons.mp hmem
    · cases heq
      exact Nat.le_max_left _ _
    · exact Nat.le_trans (nesting_le_nestingOf hmem) (Nat.le_max_right _ _)

/-- The values of the fields are plain data, too. -/
theorem IsPlainData.field (h : (object fields).IsPlainData) (hmem : (name, v) ∈ fields) :
    v.IsPlainData where
  crosses p hp := h.crosses p (List.mem_cons_of_mem _ (mem_partsOf hmem hp))
  ordered p hp := h.ordered p (List.mem_cons_of_mem _ (mem_partsOf hmem hp))
  nesting := Nat.lt_of_le_of_lt (nesting_le_nestingOf hmem)
    (Nat.lt_of_succ_lt (show nestingOf fields + 1 < Json.maxNesting from h.nesting))

/-- A field is read as one of the same name. -/
def FieldReadsAs (p : String × Value) (q : String × Json) : Prop := p.1 = q.1 ∧ p.2.ReadsAs q.2

theorem fieldsReadAs_of_toJsonOf : ∀ {fields : List (String × Value)} {js ks : List (String × Json)},
    toJsonOf fields = .ok js → List.Forall₂ Json.FieldReadsTo js ks →
      Json.nestingOf js < Json.maxNesting → List.Forall₂ FieldReadsAs fields ks
  | [], js, ks, hjs, hks, _ => by
    cases hjs
    cases hks
    exact .nil
  | (n, u) :: fields, js, ks, hjs, hks, hnest => by
    rw [toJsonOf] at hjs
    cases hu : u.toJson with
    | error f =>
      rw [hu] at hjs
      cases hjs
    | ok j =>
      cases hrest : toJsonOf fields with
      | error f =>
        rw [hu, hrest] at hjs
        cases hjs
      | ok js' =>
        rw [hu, hrest] at hjs
        cases hjs
        rw [Json.nestingOf] at hnest
        cases hks with
        | cons hk hks =>
          obtain ⟨hname, hreads⟩ := hk
          exact .cons ⟨hname, j, hu, Json.parse_of_readsTo hreads (by omega)⟩
            (fieldsReadAs_of_toJsonOf hrest hks (by omega))

/-- What the text of an object reads as has the fields that the values of the object read as. -/
theorem IsPlainData.exists_fields (h : (object fields).IsPlainData) : ∃ ks,
    (object fields).ReadsAs (.object ks) ∧ List.Forall₂ FieldReadsAs fields ks := by
  obtain ⟨j, hj, -, hdatum, hnest⟩ := h.exists_data
  rw [toJson] at hj
  cases hjs : toJsonOf fields with
  | error f =>
    rw [hjs] at hj
    cases hj
  | ok js =>
    rw [hjs] at hj
    cases hj
    obtain ⟨hnames, hdata⟩ := (Bool.and_eq_true _ _).mp hdatum
    obtain ⟨ks, hks⟩ := Json.exists_forall₂_fieldReadsTo js hdata
    refine ⟨ks, ⟨.object js, by rw [toJson, hjs]; rfl, Json.parse_of_readsTo
      (Json.readsTo_object hks (of_decide_eq_true hnames)) hnest⟩, ?_⟩
    exact fieldsReadAs_of_toJsonOf hjs hks (Nat.lt_of_succ_lt hnest)

/-- Fields are read under their own names. -/
theorem keys_eq {ks : List (String × Json)} (h : List.Forall₂ FieldReadsAs fields ks) :
    fields.map Prod.fst = ks.map Prod.fst := by
  induction h with
  | nil => rfl
  | cons hp _ ih => rw [List.map_cons, List.map_cons, hp.1, ih]

/-- The names of a plain object are different. -/
theorem IsPlainData.nodup (h : (object fields).IsPlainData) : (fields.map Prod.fst).Nodup := by
  have hnames : (fields.map Prod.fst).Pairwise (· < ·) :=
    of_decide_eq_true (h.ordered _ (mem_parts_self _))
  exact hnames.imp fun hlt heq => absurd (heq ▸ hlt) (String.lt_irrefl _)

end Value

/-- A value is embodied as data if the datum that it is read as is. -/
theorem World.embodiesData_iff : w.EmbodiesData v o ↔
    ∃ k, v.ReadsAs k ∧ w.host.Embodies w.host.heap.size k o := by
  constructor
  · rintro ⟨j, k, hj, hparse, ho⟩
    exact ⟨k, ⟨j, hj, hparse⟩, ho⟩
  · rintro ⟨k, ⟨j, hj, hparse⟩, ho⟩
    exact ⟨j, k, hj, hparse, ho⟩

/-! ### Fields of lists -/

namespace Interpreter

variable {i : Interpreter} {below : Nat} {os : List Obj}

/-- Names stand for different symbols. -/
theorem Interned.eq_of_find? {m n : String} (hi : i.Interned) (hm : m ≠ "nil") (hn : n ≠ "nil")
    (hma : i.find? m = some a) (hna : i.find? n = some a) : m = n := by
  obtain ⟨value, function, hcell⟩ := hi.symbol hm hma
  obtain ⟨value', function', hcell'⟩ := hi.symbol hn hna
  cases hcell.symm.trans hcell'
  rfl

/-- After the keyword of a field, there is what embodies its value. -/
theorem valueAfter_of_embodiesOf (hi : i.Interned) (ha : i.find? (":" ++ name) = some a) :
    ∀ {fields : List (String × Json)} {os : List Obj}, i.EmbodiesOf below fields os →
      (fields.map Prod.fst).Nodup → (name, k) ∈ fields →
        ∃ x, Host.valueAfter (.ref a) os = some x ∧ i.Embodies below k x
  | (n, j) :: fields, _, ⟨b, x, rest, rfl, hb, hx, hrest⟩, hnames, hmem => by
    obtain ⟨hnew, hnames⟩ := List.nodup_cons.mp hnames
    rw [Host.valueAfter]
    obtain heq | hmem := List.mem_cons.mp hmem
    · cases heq
      obtain rfl := Option.some.inj (hb.symm.trans ha)
      exact ⟨x, if_pos (Obj.eq_refl _), hx⟩
    · have hother : (Obj.ref b).eq (.ref a) = false := by
        refine Bool.eq_false_iff.mpr fun heq => hnew ?_
        obtain rfl := Obj.ref.inj ((Obj.eq_iff_of_isHeap rfl).mp heq)
        have hsame := String.append_right_inj _ |>.mp
          (hi.eq_of_find? (keyword_ne n (by decide)) (keyword_ne name (by decide)) hb ha)
        exact hsame ▸ List.mem_map.mpr ⟨_, hmem, rfl⟩
      rw [hother]
      exact valueAfter_of_embodiesOf hi ha hrest hnames hmem

/-- The list of an object has a value for each keyword. -/
theorem EmbodiesOf.length_eq : ∀ {fields : List (String × Json)} {os : List Obj},
    i.EmbodiesOf below fields os → os.length = 2 * fields.length
  | [], _, rfl => rfl
  | _ :: _, _, ⟨_, _, _, rfl, _, _, hrest⟩ => by
    rw [List.length_cons, List.length_cons, List.length_cons, hrest.length_eq]
    omega

theorem Embodies.known (hi : i.Interned) : ∀ {k : Json} {o : Obj}, i.Embodies below k o →
    i.heap.known o = o
  | .null, _, rfl | .bool false, _, rfl | .float _ _, _, rfl => rfl
  | .int n, _, rfl => by
    unfold Obj.ofInt
    split <;> rfl
  | .bool true, _, ⟨_, rfl, ha⟩ => by
    obtain ⟨_, _, hcell⟩ := hi.symbol (by decide) ha
    exact if_pos (Heap.lt_size_of_get? hcell)
  | .text _, _, ⟨_, rfl, ha⟩ => if_pos (Heap.lt_size_of_get? ha)
  | .list _, _, ⟨_, _, rfl, _, ha, _⟩ => if_pos (Heap.lt_size_of_get? ha)
  | .object _, _, ⟨_, _, hlist, _, _⟩ => by
    cases hlist with
    | nil => rfl
    | cons _ hpair _ => exact if_pos (Heap.lt_size_of_get? hpair)

/-- Lists are made of objects only, so that they have an even number of items. -/
theorem Embodies.even_of_list? (hi : i.Interned) : ∀ {k : Json} {o head : Obj} {os : List Obj},
    i.Embodies below k o → i.heap.list? o = some (head :: os) → Even (os.length + 1)
  | .null, _, _, _, rfl, hl | .bool false, _, _, _, rfl, hl | .float _ _, _, _, _, rfl, hl => by
    obtain ⟨_, _, h, -⟩ := Heap.exists_pair_of_list? hl
    cases h
  | .int n, _, _, _, rfl, hl => by
    obtain ⟨_, _, h, -⟩ := Heap.exists_pair_of_list? hl
    unfold Obj.ofInt at h
    split at h <;> cases h
  | .bool true, _, _, _, ⟨_, rfl, ha⟩, hl => by
    obtain ⟨_, _, hcell⟩ := hi.symbol (by decide) ha
    obtain ⟨_, _, h, hpair, -⟩ := Heap.exists_pair_of_list? hl
    cases h
    cases hcell.symm.trans hpair
  | .text _, _, _, _, ⟨_, rfl, ha⟩, hl | .list _, _, _, _, ⟨_, _, rfl, _, ha, _⟩, hl => by
    obtain ⟨_, _, h, hpair, -⟩ := Heap.exists_pair_of_list? hl
    cases h
    cases ha.symm.trans hpair
  | .object _, _, _, _, ⟨_, _, hlist, _, hos⟩, hl => by
    rw [← List.length_cons, Option.some.inj (hl.symm.trans hlist.list?), hos.length_eq]
    exact even_two_mul _

end Interpreter

/-! ### What comes back -/

namespace World

/-- A script value is what the host form of another one comes back as, now and later. -/
def ReturnsAs (w : World) (v r : Value) : Prop :=
  ∃ x, w.EmbodiesData v x ∧ ∀ w₁, w.GrowsTo w₁ → w₁.ComesBackAs x r

/-- What embodies data does so as the world grows. -/
theorem EmbodiesData.growsTo (ho : w.EmbodiesData v o) (hg : w.GrowsTo w₁) :
    w₁.EmbodiesData v o := ho.of_spares hg.spares hg.host.heap.size_le

theorem lasting_returnsAs (v r : Value) : Lasting fun w => w.ReturnsAs v r := by
  refine ⟨fun hg h => ?_⟩
  obtain ⟨x, hx, hback⟩ := h
  exact ⟨x, hx.growsTo hg, fun w₂ hg₂ => hback w₂ (hg.trans hg₂)⟩

end World

namespace Border

/-- What the host has made of data arrives. -/
theorem handsOver_embodied (hx : w.EmbodiesData v x) :
    HandsOver (fun r w₁ => w₁.ReturnsAs v r) x w := by
  intro hdue
  have hclosed := hdue.isReached.isClosed
  have hinterned := hdue.steady.interned
  obtain ⟨k, -, hk⟩ := World.embodiesData_iff.mp hx
  have hreturns : ∀ {r w₁}, w.Sustains w₁ → (∀ w₂, w₁.GrowsTo w₂ → w₂.ReceivesAs x (w.passage x) r) →
      w₁.ReturnsAs v r := fun hs hr => ⟨x, hx.growsTo hs.grown, fun w₂ hg => by
    rw [World.ComesBackAs, (hs.grown.trans hg).passage_of_known hclosed (hk.known hinterned)]
    exact hr w₂ hg⟩
  revert hdue
  cases hpassage : w.passage x with
  | data j =>
    rw [hpassage] at hreturns
    obtain ⟨k, hread⟩ := World.exists_ofText_of_passage hpassage
    exact (handsOver_data hpassage hread).mono fun r w₁ hs hr => hreturns hs fun _ _ =>
      ⟨k, hread, hr⟩
  | reference =>
    rw [hpassage] at hreturns
    refine (handsOver_reference hpassage).mono fun r w₁ hs hr => hreturns hs fun w₂ hg => ?_
    obtain ⟨h, hr, hh⟩ := hr
    exact ⟨h, hr, hg.host.kept hh⟩
  | wrapped key =>
    -- a marker has three items
    obtain ⟨_, _, _, hlist, -⟩ := World.passage_eq_wrapped.mp hpassage
    have hthree : Even 3 := hk.even_of_list? hinterned hlist
    exact absurd hthree (by decide)

end Border

/-! ### Looking fields up -/

namespace World

/-- A handle is for the keyword of a name. -/
def IsKeyword (w : World) (name : String) (h : Handle) : Prop :=
  ∃ a, w.host.resolve? h.id = some (.ref a) ∧ w.host.find? (":" ++ name) = some a

theorem lasting_isKeyword (name : String) (h : Handle) : Lasting fun w => w.IsKeyword name h := by
  refine ⟨fun hg hh => ?_⟩
  obtain ⟨a, hresolve, ha⟩ := hh
  exact ⟨a, hg.host.kept hresolve, hg.host.names ha⟩

/-- A script value is another one, or a handle of what the host has made of its data. -/
def Carries (w : World) (v u : Value) : Prop :=
  u = v ∨ ∃ g o, u = .handle g ∧ w.host.resolve? g.id = some o ∧ w.EmbodiesData v o

theorem lasting_carries (v u : Value) : Lasting fun w => w.Carries v u := by
  refine ⟨fun hg h => h.imp_right fun h => ?_⟩
  obtain ⟨g, o, hu, hresolve, ho⟩ := h
  exact ⟨g, o, hu, hg.host.kept hresolve, ho.growsTo hg⟩

theorem Carries.crosses (hplain : v.IsPlainData) (h : w.Carries v r) : w.Crosses r := by
  obtain rfl | ⟨g, o, rfl, hresolve, -⟩ := h
  · exact hplain.crosses_host
  · exact crosses_handle hresolve

/-- What stands for a plain value embodies it. -/
theorem embodiesData_of_standsFor (hplain : v.IsPlainData) (ho : w.StandsFor v o) :
    w.EmbodiesData v o := by
  obtain ⟨j, hj, -⟩ := hplain.exists_data
  exact ((standsFor_data hj).mp ho).2

/-- What stands for something that carries a plain value embodies that value. -/
theorem Carries.embodiesData (hplain : v.IsPlainData) (h : w.Carries v r) (hg : w.GrowsTo w₁)
    (ho : w₁.StandsFor r o) : w₁.EmbodiesData v o := by
  obtain rfl | ⟨g, o', rfl, hresolve, ho'⟩ := h
  · exact embodiesData_of_standsFor hplain ho
  · obtain rfl := Option.some.inj ((hg.host.kept hresolve).symm.trans ho)
    exact ho'.growsTo hg

end World

/-- The value of a field is found by the keyword of its name. -/
theorem Host.succeeds_plistGet (hplain : (Value.object fields).IsPlainData)
    (ho : w.EmbodiesData (.object fields) o) (ha : w.host.find? (":" ++ name) = some a)
    (hmem : (name, v) ∈ fields) :
    (plistGet o (.ref a)).Succeeds w fun x w₁ => w₁.EmbodiesData v x := by
  intro hdue
  have hinterned := hdue.steady.interned
  revert hdue
  obtain ⟨ks, hks, hfields⟩ := hplain.exists_fields
  obtain ⟨k, hk, ho⟩ := World.embodiesData_iff.mp ho
  obtain rfl := hks.unique hk
  obtain ⟨lo, os, hlist, hle, hos⟩ := ho
  obtain ⟨⟨_, k⟩, hq, rfl, hreads⟩ := exists_mem_of_forall₂ hfields hmem
  -- the names differ, and so do their keywords
  have hnodup : (ks.map Prod.fst).Nodup := Value.keys_eq hfields ▸ hplain.nodup
  obtain ⟨x, hx, hembodies⟩ :=
    Interpreter.valueAfter_of_embodiesOf hinterned ha hos hnodup hq
  -- the list is searched from its start, a keyword and a value at a time
  refine (succeeds_query .heap).bind fun h w₁ _ heq => ?_
  obtain ⟨rfl, rfl⟩ := heq
  simp only [Query.ask, hlist.list?, Option.getD_some, hx]
  exact succeeds_pure (World.embodiesData_iff.mpr ⟨_, hreads,
    hembodies.of_spares (World.GrowsTo.refl _).spares (by omega)⟩)

namespace Border

/-- The keyword of a name is looked up, if the symbol that has its name is the only one. -/
theorem succeeds_keyword {s : String} (hname : hostName s .keyword = ":" ++ name)
    (hsole : w.host.IsSole (":" ++ name)) :
    (keyword s).Succeeds w fun h w₁ => w₁.IsKeyword name h := by
  refine (succeeds_lookup s .keyword).mono fun h w₁ hs hh => ?_
  obtain ⟨⟨o, ho, hnames⟩, -⟩ := hh
  rw [hname] at hnames
  obtain ⟨hnil, -⟩ | ⟨a, value, function, rfl, ha⟩ := hnames
  · exact absurd hnil (keyword_ne name (by decide))
  · exact ⟨a, ho, hs.sole hsole a value function ha⟩

/-- So it is found by a call. -/
theorem succeeds_call_plistGet {h : Handle} (hoffers : w.Offers .plistGet)
    (hplain : (Value.object fields).IsPlainData) (hr : w.Carries (.object fields) r)
    (hh : w.IsKeyword name h) (hmem : (name, v) ∈ fields) :
    (call "plist-get" [r, .handle h]).Succeeds w fun u w₁ => w₁.ReturnsAs v u := by
  obtain ⟨a, hresolve, ha⟩ := hh
  refine (succeeds_call (b := .plistGet) (R := fun x w₁ => w₁.EmbodiesData v x) (by cbv) hoffers
    (by simpa using ⟨hr.crosses hplain, World.crosses_handle hresolve⟩)
    (World.lasting_returnsAs v) (fun os w₁ hs hos => ?_)
    fun x w₁ _ hx => handsOver_embodied hx).mono fun u w₁ _ hu => hu.1
  cases hos with
  | @cons _ o _ _ ho hrest =>
    cases hrest with
    | @cons _ o' _ _ ho' hnil =>
      cases hnil
      obtain rfl := Option.some.inj ((hs.grown.host.kept hresolve).symm.trans ho')
      exact Host.succeeds_plistGet hplain (hr.embodiesData hplain hs.grown ho)
        (hs.grown.host.names ha) hmem

/-- What the host has made of the same data is equal. -/
theorem succeeds_call_equal {u : Value} (hoffers : w.Offers .equal) (hplain : v.IsPlainData)
    (hr : w.Carries v r) (hu : w.Carries v u) :
    (call "equal" [r, u]).Succeeds w fun t _ => t = .bool true := by
  refine (succeeds_call (b := .equal) (R := fun t w₁ => ∃ a, t = .ref a ∧
    w₁.host.find? truthName = some a) (by cbv) hoffers
    (by simpa using ⟨hr.crosses hplain, hu.crosses hplain⟩)
    (fun t => World.lasting_const _) (fun os w₁ hs hos => ?_) fun t w₁ _ ht => ?_).mono
      fun t w₁ _ ht => ht.1
  · cases hos with
    | @cons _ o _ _ ho hrest =>
      cases hrest with
      | @cons _ o' _ _ ho' hnil =>
        -- the two objects embody the same datum, and so they are equal
        cases hnil
        intro hdue
        obtain ⟨k, hk, hembodies⟩ :=
          World.embodiesData_iff.mp (hr.embodiesData hplain hs.grown ho)
        obtain ⟨k', hk', hembodies'⟩ :=
          World.embodiesData_iff.mp (hu.embodiesData hplain hs.grown ho')
        obtain rfl := hk.unique hk'
        have hequal : w₁.host.heap.equal o o' = true :=
          Interpreter.equalWithin_of_embodies hdue.steady.interned _ hembodies hembodies'
            (Nat.lt_succ_self _)
        revert hdue
        refine (succeeds_query .heap).bind fun h w₂ _ heq => ?_
        obtain ⟨rfl, rfl⟩ := heq
        simp only [Query.ask, List.getD_cons_zero, List.getD_cons_succ, hequal]
        exact (builds_intern (show truthName ≠ "nil" by decide)).succeeds (isAdditive_change rfl)
  · obtain ⟨a, rfl, ha⟩ := ht
    exact handsOver_truth ha

end Border

/-! ### Building the list -/

namespace World

/-- Script values are the keywords and the values of fields in turn. -/
inductive Keys (w : World) : List (String × Value) → List Value → Prop where
  | nil : Keys w [] []
  | cons {h : Handle} {name : String} {v : Value} {fields : List (String × Value)}
    {vs : List Value} (hh : w.IsKeyword name h) (hrest : Keys w fields vs) :
    Keys w ((name, v) :: fields) (.handle h :: v :: vs)

variable {vs : List Value} {os : List Obj} {ks : List (String × Json)}

theorem Keys.crosses (h : w.Keys fields vs) (hplain : ∀ p ∈ fields, p.2.IsPlainData) :
    ∀ u ∈ vs, w.Crosses u := by
  induction h with
  | nil => exact List.forall_mem_nil _
  | cons hh _ ih =>
    obtain ⟨a, hresolve, -⟩ := hh
    obtain ⟨hv, hfields⟩ := List.forall_mem_cons.mp hplain
    exact List.forall_mem_cons.mpr ⟨crosses_handle hresolve,
      List.forall_mem_cons.mpr ⟨hv.crosses_host, ih hfields⟩⟩

/-- What the values stand for are the items of the list that the host makes of an object. -/
theorem Keys.embodiesOf (h : w.Keys fields vs) (hplain : ∀ p ∈ fields, p.2.IsPlainData)
    (hg : w.GrowsTo w₁) (hos : List.Forall₂ w₁.StandsFor vs os)
    (hks : List.Forall₂ Value.FieldReadsAs fields ks) :
    w₁.host.EmbodiesOf w₁.host.heap.size ks os := by
  -- the induction is on the fields; each gives two objects, a keyword and a value
  induction h generalizing os ks with
  | nil =>
    cases hks
    cases hos
    rfl
  | @cons h name v fields vs hh _ ih =>
    obtain ⟨a, hresolve, ha⟩ := hh
    obtain ⟨hv, hfields⟩ := List.forall_mem_cons.mp hplain
    cases hks with
    | @cons _ q _ ks hq hks =>
      obtain ⟨n, k⟩ := q
      obtain ⟨rfl, hreads⟩ := hq
      cases hos with
      | cons hkeyword hos =>
        cases hos with
        | cons ho hos =>
          obtain rfl := Option.some.inj ((hg.host.kept hresolve).symm.trans hkeyword)
          obtain ⟨k', hk', hembodies⟩ :=
            embodiesData_iff.mp (embodiesData_of_standsFor hv ho)
          obtain rfl := hreads.unique hk'
          exact ⟨a, _, _, rfl, hg.host.names ha, hembodies, ih hfields hos hks⟩

/-- The list of an object that has fields crosses by reference. -/
theorem EmbodiesData.passage_eq (hw : w.host.Interned) (ho : w.EmbodiesData (.object fields) o)
    (hplain : (Value.object fields).IsPlainData) (hne : fields ≠ []) :
    w.passage o = .reference := by
  obtain ⟨ks, hks, hfields⟩ := hplain.exists_fields
  obtain ⟨k, hk, hembodies⟩ := embodiesData_iff.mp ho
  obtain rfl := hks.unique hk
  -- a list of keywords and values is of even length, and so it is not of three like a marker
  have heven : ∀ {head : Obj} {os : List Obj}, w.host.heap.list? o = some (head :: os) →
      Even (os.length + 1) := hembodies.even_of_list? hw
  obtain ⟨lo, os, hlist, -, hos⟩ := hembodies
  cases os with
  | nil =>
    have hlength := hos.length_eq
    rw [← hfields.length_eq] at hlength
    exact absurd (List.length_eq_zero_iff.mp (by simpa using hlength.symm)) hne
  | cons head items =>
    refine passage_of_list? hlist.list? fun i g hitems => ?_
    subst hitems
    have hthree : Even 3 := heven hlist.list?
    exact absurd hthree (by decide)

end World

namespace Border

/-- Names and values are listed in turn, each name as its keyword. The induction is on the
fields. -/
theorem succeeds_keyed : ∀ {fields : List (String × Value)} {w : World},
    (∀ p ∈ fields, hostName p.1 .keyword = ":" ++ p.1 ∧ w.host.IsSole (":" ++ p.1)) →
      (keyed fields).Succeeds w fun vs w₁ => w₁.Keys fields vs
  | [], _, _ => succeeds_pure .nil
  | (name, v) :: fields, w, hfields => by
    obtain ⟨⟨hname, hsole⟩, hrest⟩ := List.forall_mem_cons.mp hfields
    refine (succeeds_keyword hname hsole).bind fun h w₁ hs₁ hh => ?_
    refine (succeeds_keyed fun p hp => ⟨(hrest p hp).1, hs₁.sole (hrest p hp).2⟩).bind
      fun vs w₂ hs₂ hvs => succeeds_pure ?_
    exact .cons ((World.lasting_isKeyword name h).grows hs₂.grown hh) hvs

/-- What is built of the keywords and the values of an object is what the host makes of it. -/
theorem succeeds_plist (hoffers : w.Offers .list) (hplain : (Value.object fields).IsPlainData)
    (hne : fields ≠ [])
    (hfields : ∀ p ∈ fields, hostName p.1 .keyword = ":" ++ p.1 ∧ w.host.IsSole (":" ++ p.1)) :
    (plist fields).Succeeds w fun u w₁ => w₁.Carries (.object fields) u := by
  have hplains : ∀ p ∈ fields, p.2.IsPlainData := fun p hp => hplain.field hp
  obtain ⟨ks, hks, hreads⟩ := hplain.exists_fields
  refine (succeeds_keeping (World.lasting_carries _) ((succeeds_keyed hfields).bind
    fun vs w₁ hs₁ hvs => ?_)).mono fun u w₁ _ hu => hu.1
  -- the host lists the keywords and values, and the list embodies the fields
  refine (succeeds_call (b := .list) (R := fun o w₂ => w₂.EmbodiesData (.object fields) o)
    (by cbv) (hs₁.offers hoffers) (hvs.crosses hplains) (World.lasting_carries _)
    (fun os w₂ hs₂ hos => ?_) fun o w₂ _ ho => ?_).mono fun u w₂ _ hu => hu.1
  · have hitems := hvs.embodiesOf hplains hs₂.grown hos hreads
    have hlist := (Host.builds_list os (Nat.le_refl w₂.host.heap.size)).succeeds
      (Host.isAdditive_list os)
    exact hlist.mono fun o w₃ hs₃ ho => World.embodiesData_iff.mpr ⟨_, hks, _, os, ho.1, ho.2,
      hitems.of_spares hs₃.grown.spares (Nat.le_refl _)⟩
  · intro hdue
    have hpassage := ho.passage_eq hdue.steady.interned hplain hne
    revert hdue
    refine (handsOver_reference hpassage).mono fun u w₃ hs₃ hu => ?_
    obtain ⟨g, rfl, hresolve⟩ := hu
    exact .inr ⟨g, o, rfl, hresolve, ho.growsTo hs₃.grown⟩

end Border

/-- Script code is given the keyword of a name. The host finds the value of a field by the keyword
that is spelled like its name, in the list that the object has crossed as, and the value comes
back as what the host has made of it. The list that is built of the keywords and the values of the
object, if they are spelled like the names, is what the host makes of the object, and what it
makes of one object is equal. -/
theorem fields_are_found_by_keyword (hplain : (Value.object fields).IsPlainData)
    (hne : fields ≠ []) :
    (∀ w s name, hostName s .keyword = ":" ++ name → w.host.IsSole (":" ++ name) →
      (Border.keyword s).Succeeds w fun h w₁ => w₁.IsKeyword name h) ∧
    (∀ w r h name v, w.Offers .plistGet → w.Carries (.object fields) r → w.IsKeyword name h →
      (name, v) ∈ fields →
        (Border.call "plist-get" [r, .handle h]).Succeeds w fun u w₁ => w₁.ReturnsAs v u) ∧
    (∀ w, w.Offers .list → (∀ p ∈ fields, '_' ∉ p.1.toList ∧ isKeywordName p.1 = false ∧
        w.host.IsSole (":" ++ p.1)) →
      (Border.plist fields).Succeeds w fun u w₁ => w₁.Carries (.object fields) u) ∧
    ∀ w r u, w.Offers .equal → w.Carries (.object fields) r → w.Carries (.object fields) u →
      (Border.call "equal" [r, u]).Succeeds w fun t _ => t = .bool true := by
  refine ⟨fun w s name hname hsole => Border.succeeds_keyword hname hsole,
    fun w r h name v hoffers hr hh hmem =>
      Border.succeeds_call_plistGet hoffers hplain hr hh hmem,
    fun w hoffers hfields => Border.succeeds_plist hoffers hplain hne fun p hp => ?_,
    fun w r u hoffers hr hu => Border.succeeds_call_equal hoffers hplain hr hu⟩
  obtain ⟨hdash, hcolon, hsole⟩ := hfields p hp
  exact ⟨hostName_keyword_iff.mpr ⟨hdash, hcolon⟩, hsole⟩

namespace Transcript

/-- An object with a field of each of several kinds. -/
def palette : List (String × Value) :=
  [("accent-color", .text "red"), ("shades", .list [.text "dark", .bool true]), ("size", .null)]

/-- The fields as they stand in a step. -/
def paletteOperands : List (String × Operand) :=
  [("accent-color", .text "red"), ("shades", .list [.text "dark", .bool true]), ("size", .null)]

/-- The world in which the keyword of the first field has been looked up. -/
def paletteWorld : World := lookingUp [("accent_color", .keyword)]

/-- The value of a field is found by the keyword of its name, which script code spells with an
underscore; the list that is built is what the host makes of the object; and what it makes of
that is equal. -/
theorem fields_are_found_by_keyword_palette :
    (∃ h w₁, Comes (World.initial .standard).scene (Border.keyword "accent_color")
      (.initial .standard) (.ok h) w₁ ∧ w₁.IsKeyword "accent-color" h) ∧
    (∃ u w₁, Comes paletteWorld.scene
      (Border.call "plist-get" [.object palette, .handle ⟨1, ⟨1⟩⟩]) paletteWorld (.ok u) w₁ ∧
        w₁.ReturnsAs (.text "red") u) ∧
    (∃ u w₁, Comes (World.initial .standard).scene (Border.plist palette) (.initial .standard)
      (.ok u) w₁ ∧ w₁.Carries (.object palette) u) ∧
    ∃ w₁, Comes (World.initial .standard).scene
      (Border.call "equal" [.object palette, .object palette]) (.initial .standard)
        (.ok (.bool true)) w₁ := by
  have hplain : (Value.object palette).IsPlainData :=
    ⟨by decide +kernel, by decide +kernel, by decide +kernel⟩
  obtain ⟨hkeyword, hget, hplist, hequal⟩ := fields_are_found_by_keyword hplain (by decide)
  have hcall : (Script.perform [] (.call "plist-get" [.object paletteOperands,
      .keyword "accent_color"])).IsDue (.initial .standard) :=
    isDue_perform .standard (by decide) rfl
  have hbuild : (Script.perform [] (.plist paletteOperands)).IsDue (.initial .standard) :=
    isDue_perform .standard (by decide) rfl
  have hcompare : (Script.perform [] (.call "equal" [.object paletteOperands,
      .object paletteOperands])).IsDue (.initial .standard) :=
    isDue_perform .standard (by decide) rfl
  simp only [Script.perform, paletteOperands, Script.operands, Script.operand,
    Script.operandFields, bind_assoc, pure_bind] at hcall hbuild hcompare
  have hname : hostName "accent_color" .keyword = ":" ++ "accent-color" := by decide +kernel
  have hinitial : (World.initial .standard).Offers .list ∧ (World.initial .standard).Offers .equal ∧
      ∀ p ∈ palette, '_' ∉ p.1.toList ∧ isKeywordName p.1 = false ∧
        (World.initial .standard).host.IsSole (":" ++ p.1) := by
    rw [World.initial_eq]
    decide +kernel
  have hlooked : ((Border.lookup "accent_color" .keyword true).run
        (.initial .standard)).1.toOption = some ⟨1, ⟨1⟩⟩ ∧
      paletteWorld.Offers .plistGet ∧ paletteWorld.host.resolve? ⟨1⟩ = some (.ref 156) ∧
        paletteWorld.host.find? (":" ++ "accent-color") = some 156 := by
    rw [paletteWorld, lookingUp, World.initial_eq]
    decide +kernel
  obtain ⟨hlist, hcomparison, hsole⟩ := hinitial
  obtain ⟨hhandle, hplistGet, hresolve, hfind⟩ := hlooked
  refine ⟨?_, ?_, ?_, ?_⟩
  · obtain ⟨_, w₁, hcomes, h, rfl, -, hh⟩ :=
      hkeyword _ _ _ hname (hsole _ List.mem_cons_self).2.2 hcall.bind_left
    exact ⟨h, w₁, hcomes, hh⟩
  · obtain ⟨_, w₁, hcomes, u, rfl, -, hu⟩ := hget paletteWorld _ _ _ _ hplistGet (.inl rfl)
      ⟨156, hresolve, hfind⟩ List.mem_cons_self (hcall.lookup hhandle).bind_left
    exact ⟨u, w₁, hcomes, hu⟩
  · obtain ⟨_, w₁, hcomes, u, rfl, -, hu⟩ := hplist _ hlist hsole hbuild.bind_left
    exact ⟨u, w₁, hcomes, hu⟩
  · obtain ⟨_, w₁, hcomes, _, rfl, -, rfl⟩ :=
      hequal _ _ _ hcomparison (.inl rfl) (.inl rfl) hcompare.bind_left
    exact ⟨w₁, hcomes⟩

end Transcript

/-- Whether a step comes to null as a script value. -/
def StepReport.isNull (r : StepReport) : Bool :=
  match r.result with
  | .ok (.value .null) => true
  | _ => false

/-- A session that looks fields up by keywords: a name with an underscore, one with a colon, and
one whose keyword is uninterned after it has been found. -/
def strayKeywords : List Step := [
  .mk (.lookup "a_b" .keyword true) (some "k") false,
  .mk (.call "plist-get" [.object [("a_b", .text "v")], .variable "k"]) none false,
  .mk (.lookup ":a" .keyword true) (some "k") false,
  .mk (.call "plist-get" [.object [(":a", .text "v")], .variable "k"]) none false,
  .mk (.lookup "a" .keyword true) (some "k") false,
  .mk (.call "plist-get" [.object [("a", .text "v")], .variable "k"]) none false,
  .mk (.hostUnintern ":a") none false,
  .mk (.lookup "a" .keyword true) (some "k") false,
  .mk (.call "plist-get" [.object [("a", .text "v")], .variable "k"]) none false]

/-- The first two and the last of them are not found. -/
theorem Transcript.strayed_keywords_find_nothing :
    (Transcript.ofSteps .standard strayKeywords).map StepReport.isNull =
      [false, true, false, true, false, false, false, false, true] := by
  rw [ofSteps_eq]
  decide +kernel

end Crossing
