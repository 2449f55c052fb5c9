import Crossing.Proofs.NumberCache

/-!
# Plain data in parcels

What script code packs as text is what it gets when the text is unpacked. Some values have no
text, and these are refused, however deep the part is that has none.

- `Value.parts`: a value and everything inside it;
- `Value.isEmbeddable`, `Value.isNulFree`: which parts can stand inside a datum and in a text;
- `Value.toJson_cases`: a value has a datum, for which holds whatever is passed up from parts,
  or a part that has none;
- `Border.exists_gives_pack_refused`, `Border.exists_gives_pack`: what is packed;
- `Border.plain_data_come_back`: and what comes back.
-/

namespace Crossing

open Proc

variable {v : Value} {j : Json} {f : Failure} {key : NumberKey} {w : World}

/-! ### Parts of values -/

namespace Value

mutual

/-- A value and everything inside it. -/
def parts : Value → List Value
  | .list items => .list items :: partsIn items
  | .object fields => .object fields :: partsOf fields
  | v => [v]

/-- The parts of the items, and the items. -/
def partsIn : List Value → List Value
  | [] => []
  | v :: vs => parts v ++ partsIn vs

/-- The parts of the fields, and the fields. -/
def partsOf : List (String × Value) → List Value
  | [] => []
  | (_, v) :: fields => parts v ++ partsOf fields

end

mutual

/-- How deep lists and objects nest. -/
def nesting : Value → Nat
  | .list items => nestingIn items + 1
  | .object fields => nestingOf fields + 1
  | _ => 0

/-- The depth of the deepest item. -/
def nestingIn : List Value → Nat
  | [] => 0
  | v :: vs => max (nesting v) (nestingIn vs)

/-- The depth of the deepest field. -/
def nestingOf : List (String × Value) → Nat
  | [] => 0
  | (_, v) :: fields => max (nesting v) (nestingOf fields)

end

/-- Whether a part can stand inside a datum, whatever is inside it: it has no identity and
is no infinite double or the like. -/
def isEmbeddable : Value → Bool
  | .float x => x.isFinite
  | v => !v.hasIdentity

/-- Whether a part can stand in a text, whatever is inside it: there is no NUL in it and in
the names of its fields. -/
def isNulFree : Value → Bool
  | .text s => !Json.hasNul s
  | .object fields => fields.all fun p => !Json.hasNul p.1
  | _ => true

/-- Whether a part has each field once and in order, whatever is inside it. -/
def isOrdered : Value → Bool
  | .object fields => decide ((fields.map Prod.fst).Pairwise (· < ·))
  | _ => true

/-- Whether a part is no double, or one whose text reads back. -/
def readsBack : Value → Bool
  | .float x => Json.readsBack x
  | _ => true

theorem mem_parts_self (v : Value) : v ∈ v.parts := by
  cases v <;> exact List.mem_cons_self

/-! ### Data of values -/

/-- What holds of values without parts and their data, and is passed up to lists and objects
from what is inside them. -/
structure BuildsUp (P : Value → Json → Prop) : Prop where
  null : P .null .null
  bool (b : Bool) : P (.bool b) (.bool b)
  int (i : Fixnum) : P (.int i) (.ofFixnum i)
  float {x : Float} (hx : x.isFinite = true) : P (.float x) (.float x hx)
  text (s : String) : P (.text s) (.text s)
  list {vs : List Value} {js : List Json} : List.Forall₂ P vs js → P (.list vs) (.list js)
  object {vs : List (String × Value)} {js : List (String × Json)} :
    List.Forall₂ (fun p q => p.1 = q.1 ∧ P p.2 q.2) vs js → P (.object vs) (.object js)

/-- The failure of a value with parts that cannot stand inside a datum. -/
structure IsRefusal (parts : List Value) (f : Failure) : Prop where
  label : f.label = "Encoding"
  part : ∃ p ∈ parts, p.isEmbeddable = false

theorem IsRefusal.mono {ps qs : List Value} (h : IsRefusal ps f) (hsub : ps ⊆ qs) :
    IsRefusal qs f := by
  obtain ⟨p, hp, hpart⟩ := h.part
  exact ⟨h.label, p, hsub hp, hpart⟩

section

variable {P : Value → Json → Prop}

mutual

/-- A value has a datum, or a part that cannot stand inside one. -/
theorem toJson_cases (hP : BuildsUp P) : ∀ v : Value,
    (∃ j, v.toJson = .ok j ∧ P v j) ∨ ∃ f, v.toJson = .error f ∧ IsRefusal v.parts f
  | .null => .inl ⟨_, rfl, hP.null⟩
  | .bool b => .inl ⟨_, rfl, hP.bool b⟩
  | .int i => .inl ⟨_, rfl, hP.int i⟩
  | .text s => .inl ⟨_, rfl, hP.text s⟩
  | .float x => by
    rw [toJson, Json.ofFloat?]
    by_cases hx : x.isFinite = true
    · rw [dif_pos hx]
      exact .inl ⟨_, rfl, hP.float hx⟩
    · rw [dif_neg hx]
      exact .inr ⟨_, rfl, rfl, _, mem_parts_self _, Bool.eq_false_iff.mpr hx⟩
  | .list items => by
    rw [toJson]
    obtain ⟨js, hjs, hitems⟩ | ⟨f, hf, hrefusal⟩ := toJsonIn_cases hP items
    · exact .inl ⟨.list js, by rw [hjs]; rfl, hP.list hitems⟩
    · exact .inr ⟨f, by rw [hf]; rfl, hrefusal.mono (List.subset_cons_self _ _)⟩
  | .object fields => by
    rw [toJson]
    obtain ⟨js, hjs, hfields⟩ | ⟨f, hf, hrefusal⟩ := toJsonOf_cases hP fields
    · exact .inl ⟨.object js, by rw [hjs]; rfl, hP.object hfields⟩
    · exact .inr ⟨f, by rw [hf]; rfl, hrefusal.mono (List.subset_cons_self _ _)⟩
  | .handle _ => .inr ⟨_, rfl, rfl, _, mem_parts_self _, rfl⟩
  | .function _ => .inr ⟨_, rfl, rfl, _, mem_parts_self _, rfl⟩
  | .native _ => .inr ⟨_, rfl, rfl, _, mem_parts_self _, rfl⟩

/-- Items are all data, or some part of them is refused. -/
theorem toJsonIn_cases (hP : BuildsUp P) : ∀ vs : List Value,
    (∃ js, toJsonIn vs = .ok js ∧ List.Forall₂ P vs js) ∨
      ∃ f, toJsonIn vs = .error f ∧ IsRefusal (partsIn vs) f
  | [] => .inl ⟨_, rfl, .nil⟩
  | v :: vs => by
    rw [toJsonIn]
    obtain ⟨j, hj, hv⟩ | ⟨f, hf, hrefusal⟩ := toJson_cases hP v
    · obtain ⟨js, hjs, hvs⟩ | ⟨f, hf, hrefusal⟩ := toJsonIn_cases hP vs
      · exact .inl ⟨j :: js, by rw [hj, hjs]; rfl, .cons hv hvs⟩
      · exact .inr ⟨f, by rw [hj, hf]; rfl, hrefusal.mono (List.subset_append_right _ _)⟩
    · exact .inr ⟨f, by rw [hf]; rfl, hrefusal.mono (List.subset_append_left _ _)⟩

/-- Fields are all data, or some part of them is refused. -/
theorem toJsonOf_cases (hP : BuildsUp P) : ∀ fields : List (String × Value),
    (∃ js, toJsonOf fields = .ok js ∧
      List.Forall₂ (fun p q => p.1 = q.1 ∧ P p.2 q.2) fields js) ∨
      ∃ f, toJsonOf fields = .error f ∧ IsRefusal (partsOf fields) f
  | [] => .inl ⟨_, rfl, .nil⟩
  | (name, v) :: fields => by
    rw [toJsonOf]
    obtain ⟨j, hj, hv⟩ | ⟨f, hf, hrefusal⟩ := toJson_cases hP v
    · obtain ⟨js, hjs, hfields⟩ | ⟨f, hf, hrefusal⟩ := toJsonOf_cases hP fields
      · exact .inl ⟨(name, j) :: js, by rw [hj, hjs]; rfl, .cons ⟨rfl, hv⟩ hfields⟩
      · exact .inr ⟨f, by rw [hj, hf]; rfl, hrefusal.mono (List.subset_append_right _ _)⟩
    · exact .inr ⟨f, by rw [hf]; rfl, hrefusal.mono (List.subset_append_left _ _)⟩

end

/-- What is passed up holds of all values that have a datum. -/
theorem BuildsUp.of_toJson (hP : BuildsUp P) (hj : v.toJson = .ok j) : P v j := by
  obtain ⟨k, hk, h⟩ | ⟨f, hf, -⟩ := toJson_cases hP v
  · obtain rfl := Except.ok.inj (hj.symm.trans hk)
    exact h
  · rw [hj] at hf
    cases hf

end

/-- A value without a datum has a part that cannot stand inside one. -/
theorem isRefusal_of_toJson (hf : v.toJson = .error f) : IsRefusal v.parts f := by
  have hup : BuildsUp fun _ _ => True := by
    constructor <;> intros <;> trivial
  obtain ⟨j, hj, -⟩ | ⟨g, hg, hrefusal⟩ := toJson_cases hup v
  · rw [hf] at hj
    cases hj
  · obtain rfl := Except.error.inj (hf.symm.trans hg)
    exact hrefusal

/-- The value of a datum is the value that the datum was made of. -/
theorem ofJson_of_toJson (hj : v.toJson = .ok j) : ofJson j = v := by
  have hup : BuildsUp fun v j => ofJson j = v := by
    refine ⟨rfl, fun _ => rfl, ofJson_ofFixnum, fun _ => rfl, fun _ => rfl, fun h => ?_,
      fun h => ?_⟩
    · refine congrArg Value.list ?_
      induction h with
      | nil => rfl
      | cons hv _ ih => rw [ofJsonIn, hv, ih]
    · refine congrArg Value.object ?_
      induction h with
      | nil => rfl
      | cons hv _ ih => rw [ofJsonOf, ← hv.1, hv.2, ih]
  exact hup.of_toJson hj

/-- Everything inside a value that has a datum can stand inside one. -/
theorem isEmbeddable_of_toJson (hj : v.toJson = .ok j) :
    ∀ p ∈ v.parts, p.isEmbeddable = true := by
  have hup : BuildsUp fun v _ => ∀ p ∈ v.parts, p.isEmbeddable = true := by
    refine ⟨?_, ?_, ?_, ?_, ?_, fun h => ?_, fun h => ?_⟩
    rotate_right 2
    · refine List.forall_mem_cons.mpr ⟨rfl, ?_⟩
      induction h with
      | nil => exact List.forall_mem_nil _
      | cons hv _ ih => exact List.forall_mem_append.mpr ⟨hv, ih⟩
    · refine List.forall_mem_cons.mpr ⟨rfl, ?_⟩
      induction h with
      | nil => exact List.forall_mem_nil _
      | cons hv _ ih => exact List.forall_mem_append.mpr ⟨hv.2, ih⟩
    all_goals simp [parts, isEmbeddable, hasIdentity]
  exact hup.of_toJson hj

/-- A datum has a text if everything inside its value can stand in one. -/
theorem isNulFree_of_toJson (hj : v.toJson = .ok j) : j.isNulFree = v.parts.all isNulFree := by
  have hup : BuildsUp fun v j => j.isNulFree = v.parts.all isNulFree := by
    refine ⟨rfl, fun _ => rfl, fun _ => rfl, fun _ => rfl, fun s => ?_, fun {vs js} h => ?_,
      fun h => ?_⟩
    · exact (Bool.and_true _).symm
    · show Json.isNulFreeIn js = (partsIn vs).all isNulFree
      induction h with
      | nil => rfl
      | cons hv _ ih => rw [Json.isNulFreeIn, partsIn, List.all_append, hv, ih]
    · rw [Json.isNulFree, parts, List.all_cons, isNulFree]
      -- the names of the fields are not inside the values of the fields
      induction h with
      | nil => rfl
      | cons hv _ ih =>
        rw [Json.isNulFreeOf, partsOf, List.all_append, List.all_cons, ← hv.1, hv.2, ih]
        simp only [Bool.and_assoc, Bool.and_left_comm]
  exact hup.of_toJson hj

/-- Objects of a datum are in order if all objects inside its value are. -/
theorem isDatum_of_toJson (hj : v.toJson = .ok j) : j.isDatum = v.parts.all isOrdered := by
  -- what can be a datum is built up as values are; only integers and objects could fail
  have hup : BuildsUp fun v j => j.isDatum = v.parts.all isOrdered := by
    refine ⟨rfl, fun _ => rfl, fun i => ?_, fun _ => rfl, fun _ => rfl, fun {vs js} h => ?_,
      fun h => ?_⟩
    · have hrange := i.inRange
      exact decide_eq_true (by omega)
    · show Json.isDatumIn js = (partsIn vs).all isOrdered
      induction h with
      | nil => rfl
      | cons hv _ ih => rw [Json.isDatumIn, partsIn, List.all_append, hv, ih]
    · have hnames : ∀ {vs : List (String × Value)} {js : List (String × Json)},
          List.Forall₂ (fun p q => p.1 = q.1 ∧ q.2.isDatum = p.2.parts.all isOrdered) vs js →
            vs.map Prod.fst = js.map Prod.fst := fun h => by
        induction h with
        | nil => rfl
        | cons hv _ ih => rw [List.map_cons, List.map_cons, hv.1, ih]
      rw [Json.isDatum, parts, List.all_cons, isOrdered, hnames h]
      refine congrArg (_ && ·) ?_
      induction h with
      | nil => rfl
      | cons hv _ ih => rw [Json.isDatumOf, partsOf, List.all_append, hv.2, ih]
  exact hup.of_toJson hj

/-- The doubles of a datum are those inside its value. -/
theorem mem_parts_of_toJson (hj : v.toJson = .ok j) : ∀ x ∈ j.doubles, .float x ∈ v.parts := by
  -- a double in the data is a part of the value
  have hup : BuildsUp fun v j => ∀ x ∈ j.doubles, .float x ∈ v.parts := by
    refine ⟨List.forall_mem_nil _, fun _ => List.forall_mem_nil _, fun i x hx => ?_,
      fun _ x hx => ?_, fun _ => List.forall_mem_nil _, fun h x hx => ?_, fun h x hx => ?_⟩
    · rw [Json.ofFixnum, Json.doubles, if_neg (by rw [Fixnum.ofInt?_val]; simp)] at hx
      cases hx
    · rw [List.mem_singleton.mp hx]
      exact mem_parts_self _
    · refine List.mem_cons_of_mem _ ?_
      rw [Json.doubles] at hx
      induction h with
      | nil => cases hx
      | cons hv _ ih => exact List.mem_append.mpr ((List.mem_append.mp hx).imp (hv x) ih)
    · refine List.mem_cons_of_mem _ ?_
      rw [Json.doubles] at hx
      induction h with
      | nil => cases hx
      | cons hv _ ih => exact List.mem_append.mpr ((List.mem_append.mp hx).imp (hv.2 x) ih)
  exact hup.of_toJson hj

/-- A datum nests as deep as its value. -/
theorem nesting_of_toJson (hj : v.toJson = .ok j) : j.nesting = v.nesting := by
  have hup : BuildsUp fun v j => j.nesting = v.nesting := by
    refine ⟨rfl, fun _ => rfl, fun _ => rfl, fun _ => rfl, fun _ => rfl, fun h => ?_, fun h => ?_⟩
    · refine congrArg (· + 1) ?_
      induction h with
      | nil => rfl
      | cons hv _ ih => rw [Json.nestingIn, nestingIn, hv, ih]
    · refine congrArg (· + 1) ?_
      induction h with
      | nil => rfl
      | cons hv _ ih => rw [Json.nestingOf, nestingOf, hv.2, ih]
  exact hup.of_toJson hj

/-! ### Texts of values -/

/-- Whether a part can cross inside data, whatever is inside it. -/
def crosses (p : Value) : Bool := p.isEmbeddable && p.isNulFree

/-- A value all of whose parts cross has a text, which is that of its datum. -/
theorem exists_toText (hv : ∀ p ∈ v.parts, p.crosses = true) :
    ∃ j, v.toJson = .ok j ∧ j.isNulFree = true := by
  have hparts := fun p hp => (Bool.and_eq_true _ _).mp (hv p hp)
  cases hj : v.toJson with
  | error f =>
    obtain ⟨p, hp, hpart⟩ := (isRefusal_of_toJson hj).part
    rw [(hparts p hp).1] at hpart
    cases hpart
  | ok j =>
    refine ⟨j, rfl, ?_⟩
    rw [isNulFree_of_toJson hj]
    exact List.all_eq_true.mpr fun p hp => (hparts p hp).2

/-- A value with a part that does not cross has none. -/
theorem exists_toText_error {p : Value} (hp : p ∈ v.parts) (hpart : p.crosses = false) :
    ∃ f, (v.toJson >>= Json.toText) = .error f ∧ f.label = "Encoding" := by
  cases hj : v.toJson with
  | error f => exact ⟨f, rfl, (isRefusal_of_toJson hj).label⟩
  | ok j =>
    -- the part is embeddable, so that there is a NUL in it
    have hnul : p.isNulFree = false := by
      rwa [crosses, isEmbeddable_of_toJson hj p hp, Bool.true_and] at hpart
    refine ⟨.containsNul, if_neg ?_, rfl⟩
    rw [isNulFree_of_toJson hj]
    intro hall
    rw [List.all_eq_true.mp hall p hp] at hnul
    cases hnul

end Value

/-! ### Packing -/

namespace Border

/-- A number with a text is packed, whatever the host and the border remember. -/
theorem exists_gives_packNumber_number {d : Json} {o : Obj} {text : String}
    (hj : v.toJson = .ok j) (htext : j.toText = .ok text) (hparse : Json.parse text = .ok d)
    (hnumber : d.number? = some o) (key : NumberKey) (w : World) :
    ∃ h w₁, (packNumber key v).Gives 0 w (.ok h) w₁ := by
  rw [packNumber, hj]
  have hrecall : (Change.recallNumber key).run w =
      w.revive ((w.border.numberCache.find? fun e => e.1 == key).map Prod.snd) := rfl
  -- the cache has the number, or it is made and remembered
  obtain ⟨h, -, -, heq⟩ | heq :=
    w.revive_cases ((w.border.numberCache.find? fun e => e.1 == key).map Prod.snd)
  · refine ⟨h, w.hold [h], (gives_ofExcept (.ok j)).bind (gives_change_bind ?_)⟩
    rw [hrecall, heq]
    exact gives_pure h
  · obtain ⟨h, w₁, hadopt, -⟩ := gives_adopt w o
    have hmaterialize : (materialize j).Gives 0 w (.ok h) w₁ := by
      rw [materialize, htext]
      refine (gives_ofExcept (.ok _)).bind ((Host.gives_readDatum hparse w).bind ?_)
      rw [ofDatum_of_number? hnumber]
      exact (gives_pure o).bind hadopt
    refine ⟨h, ((Change.cacheNumber key h).run w₁).2,
      (gives_ofExcept (.ok j)).bind (gives_change_bind ?_)⟩
    rw [hrecall, heq]
    exact hmaterialize.bind (gives_change_bind (gives_pure h))

/-- A value with a part that does not cross is refused, and nothing changes. -/
theorem exists_gives_pack_refused {p : Value} (hhandle : ∀ h, v ≠ .handle h)
    (hfunction : ∀ c, v ≠ .function c) (hp : p ∈ v.parts) (hpart : p.crosses = false)
    (w : World) : ∃ f, (pack v).Gives 0 w (.error f) w ∧ f.label = "Encoding" := by
  by_cases hnative : ∃ name, v = .native name
  · obtain ⟨name, rfl⟩ := hnative
    exact ⟨.unwrapped, gives_fail _, rfl⟩
  have hidentity : v.hasIdentity = false := by
    cases v with
    | handle h => exact absurd rfl (hhandle h)
    | function c => exact absurd rfl (hfunction c)
    | native name => exact absurd ⟨name, rfl⟩ hnative
    | _ => rfl
  obtain ⟨f, hf, hlabel⟩ := Value.exists_toText_error hp hpart
  by_cases hcache : v.numberKey? = none ∨ w.border.config.cacheNumbers = false
  · exact ⟨f, gives_pack_text hidentity hcache hf, hlabel⟩
  · -- a number that is to be remembered is refused if it has no datum
    obtain ⟨hkey, hcached⟩ := not_or.mp hcache
    obtain ⟨key, hkey⟩ := Option.ne_none_iff_exists'.mp hkey
    obtain ⟨x, hj⟩ | ⟨j, text, -, -, hj, htext, -⟩ := Value.number_cases hkey
    · exact ⟨.notFinite x, (gives_pack_error hkey (by simpa using hcached) hj).1, rfl⟩
    · rw [hj] at hf
      cases htext.symm.trans hf

/-- All other values are packed. -/
theorem exists_gives_pack (hv : ∀ p ∈ v.parts, p.crosses = true) (w : World) :
    ∃ r w₁, (pack v).Gives 0 w (.ok r) w₁ := by
  obtain ⟨j, hj, hnul⟩ := Value.exists_toText hv
  by_cases hcache : v.numberKey? = none ∨ w.border.config.cacheNumbers = false
  · exact ⟨_, w, gives_pack_data hj hnul hcache⟩
  · obtain ⟨hkey, hcached⟩ := not_or.mp hcache
    obtain ⟨key, hkey⟩ := Option.ne_none_iff_exists'.mp hkey
    obtain ⟨x, hj'⟩ | ⟨j, text, d, o, hj, htext, hparse, hnumber⟩ := Value.number_cases hkey
    · rw [hj] at hj'
      cases hj'
    · obtain ⟨h, w₁, hgives⟩ := exists_gives_packNumber_number hj htext hparse hnumber key w
      exact ⟨_, w₁, gives_pack_cached hkey (by simpa using hcached) hgives⟩

/-- Whatever the state of both runtimes: of the values that are no handles and no functions,
those with a part that does not cross are refused, and all others are packed. Those that
are packed as text are what is unpacked, in any other state, if they nest at most 127 deep and
the texts of their doubles read back. -/
theorem plain_data_come_back (w : World) {v : Value} (hhandle : ∀ h, v ≠ .handle h)
    (hfunction : ∀ c, v ≠ .function c) :
    ((∃ f : Failure, (pack v).run w = (.error (.failure f), w) ∧ f.label = "Encoding") ↔
      ∃ p ∈ v.parts, p.isEmbeddable = false ∨ p.isNulFree = false) ∧
    ((∀ p ∈ v.parts, p.isEmbeddable = true ∧ p.isNulFree = true) →
      (∃ r w₁, (pack v).run w = (.ok r, w₁)) ∧
      ((∀ p ∈ v.parts, p.isOrdered = true ∧ p.readsBack = true) → v.nesting ≤ 127 →
        (v.numberKey? = none ∨ w.border.config.cacheNumbers = false) →
        ∃ text, (pack v).run w = (.ok (.data text, []), w) ∧
          ∀ w₁ : World, (unpack (.data text)).run w₁ = (.ok v, w₁))) := by
  have hcrosses : (∀ p ∈ v.parts, p.isEmbeddable = true ∧ p.isNulFree = true) →
      ∀ p ∈ v.parts, p.crosses = true :=
    fun hv p hp => (Bool.and_eq_true _ _).mpr (hv p hp)
  refine ⟨⟨fun ⟨f, hrun, _⟩ => ?_, fun ⟨p, hp, hpart⟩ => ?_⟩, fun hv => ⟨?_, ?_⟩⟩
  -- a value all of whose parts cross would have crossed
  · by_contra hnone
    simp only [not_exists, not_and, not_or, Bool.not_eq_false] at hnone
    obtain ⟨r, w₁, hgives⟩ := exists_gives_pack (hcrosses hnone) w
    rw [hgives.run (Nat.zero_le _)] at hrun
    cases hrun
  -- the first part that does not cross is the one that is refused
  · obtain ⟨f, hgives, hlabel⟩ :=
      exists_gives_pack_refused hhandle hfunction hp (Bool.and_eq_false_iff.mpr hpart) w
    exact ⟨f, hgives.run (Nat.zero_le _), hlabel⟩
  · obtain ⟨r, w₁, hgives⟩ := exists_gives_pack (hcrosses hv) w
    exact ⟨r, w₁, hgives.run (Nat.zero_le _)⟩
  -- a value that crosses is read back on the other side
  · intro hparts hnest hcache
    obtain ⟨j, hj, hnul⟩ := Value.exists_toText (hcrosses hv)
    have hread : Json.ofText j.render = .ok j := by
      refine Json.ofText_render ?_ (fun x hx => ?_) ?_
      · rw [Value.isDatum_of_toJson hj]
        exact List.all_eq_true.mpr fun p hp => (hparts p hp).1
      · exact (hparts _ (Value.mem_parts_of_toJson hj x hx)).2
      · rw [Value.nesting_of_toJson hj]
        exact Nat.lt_succ_of_le hnest
    refine ⟨j.render, (gives_pack_data hj hnul hcache).run (Nat.zero_le _), fun w₁ => ?_⟩
    rw [(gives_unpackData hread w₁).run (Nat.zero_le _), Value.ofJson_of_toJson hj]
    rfl

/-- The least fixnum is in range. -/
theorem inRange_least : (-9223372036854775808 : Int) ≤ -9223372036854775808 ∧
    (-9223372036854775808 : Int) ≤ 9223372036854775807 := by decide

/-- An object with numbers of both kinds, empty containers and characters that are escaped. -/
def mixedData : Value :=
  .object [("", .list [.null, .bool true, .object [], .list []]),
    ("\"", .object [("\x08\n\x1f", .text "\\ \t\x7f😀")]),
    ("é", .list [.int ⟨-9223372036854775808, inRange_least⟩, .int ⟨1, Fixnum.one.inRange⟩,
      .float 1.0, .float 1.5])]

/-- It comes back, also with numbers cached. With a handle in a list deep inside it is
refused. -/
theorem plain_data_come_back_mixed :
    (∃ text, (pack mixedData).run (.initial .standard) = (.ok (.data text, []), .initial .standard) ∧
      ∀ w₁ : World, (unpack (.data text)).run w₁ = (.ok mixedData, w₁)) ∧
    ∃ f : Failure, (pack (.list [mixedData, .list [.handle ⟨1, ⟨1⟩⟩]])).run (.initial .standard) =
      (.error (.failure f), .initial .standard) ∧ f.label = "Encoding" := by
  have hparts : ∀ p ∈ mixedData.parts, (p.isEmbeddable = true ∧ p.isNulFree = true) ∧
      p.isOrdered = true ∧ p.readsBack = true := by decide +kernel
  obtain ⟨-, hcross⟩ := plain_data_come_back (.initial .standard) (v := mixedData)
    (fun _ h => by cases h) fun _ h => by cases h
  obtain ⟨-, hback⟩ := hcross fun p hp => (hparts p hp).1
  obtain ⟨hrefused, -⟩ := plain_data_come_back (.initial .standard)
    (v := .list [mixedData, .list [.handle ⟨1, ⟨1⟩⟩]]) (fun _ h => by cases h) fun _ h => by cases h
  refine ⟨hback (fun p hp => (hparts p hp).2) (by decide) (.inl rfl), hrefused.mpr ?_⟩
  exact ⟨.handle ⟨1, ⟨1⟩⟩, by simp [Value.parts, Value.partsIn], .inl rfl⟩

end Border

end Crossing
