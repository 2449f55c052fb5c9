import Crossing.Script.Play
import Mathlib.Data.List.Forall2

/-!
# Values of two runs

Two runs of the same script code differ in the numbers under which the host
keeps objects, and so in the handles of script code. Values, parcels and reports
of the two are alike if they agree in everything else.

- `License` says how far script code may work with the bare numbers of objects:
  only where the two runs are one may it look at them;
- `Renaming` pairs the numbers of two runs, one to one;
- `Value.Alike`, `Parcel.Alike`, `Described.Alike` and `Answer.Alike`;
- `Pairing` is what is known of the two runs at some moment: which handles are
  held, which objects are kept.
-/

namespace Crossing

/-- What script code may do with the bare numbers of objects. -/
inductive License where
  /-- Anything, and the host may release what it likes. -/
  | free
  /-- It may take in an object by a number under which the host still keeps one. -/
  | careful
  /-- Nothing: two runs with other numbers go alike. -/
  | blind
deriving DecidableEq

/-- Whether the two runs are one. -/
def License.IsExact (L : License) : Prop := L ≠ .blind

/-- Numbers of one run and their counterparts in the other. -/
structure Renaming (L : License) where
  rel : ObjectId → ObjectId → Prop
  inj : ∀ {i i' j j'}, rel i i' → rel j j' → (i = j ↔ i' = j')
  eq_of_exact : ∀ {i i'}, L.IsExact → rel i i' → i = i'

variable {L : License} {R S : Handle → Handle → Prop} {K : ObjectId → ObjectId → Prop}

/-! ### Script values -/

mutual

/-- Values that differ in handles only, these being related. -/
def Value.Alike (R : Handle → Handle → Prop) : Value → Value → Prop
  | .list vs, v' => ∃ vs', v' = .list vs' ∧ Value.AlikeIn R vs vs'
  | .object fs, v' => ∃ fs', v' = .object fs' ∧ Value.AlikeOf R fs fs'
  | .handle h, v' => ∃ h', v' = .handle h' ∧ R h h'
  | v, v' => v' = v

/-- Lists of values that are alike. -/
def Value.AlikeIn (R : Handle → Handle → Prop) : List Value → List Value → Prop
  | [], vs' => vs' = []
  | v :: vs, us' => ∃ v' vs', us' = v' :: vs' ∧ Value.Alike R v v' ∧ Value.AlikeIn R vs vs'

/-- Fields whose values are alike. -/
def Value.AlikeOf (R : Handle → Handle → Prop) :
    List (String × Value) → List (String × Value) → Prop
  | [], fs' => fs' = []
  | (k, v) :: fs, gs' =>
    ∃ v' fs', gs' = (k, v') :: fs' ∧ Value.Alike R v v' ∧ Value.AlikeOf R fs fs'

end

/-- Fields of the same name whose values are alike. -/
def FieldAlike (R : Handle → Handle → Prop) (f f' : String × Value) : Prop :=
  f.1 = f'.1 ∧ f.2.Alike R f'.2

namespace Value

/-- Lists of values are alike if they are item by item. -/
theorem alikeIn_iff : ∀ {vs vs' : List Value}, AlikeIn R vs vs' ↔ List.Forall₂ (Alike R) vs vs'
  | [], vs' => by cases vs' <;> simp [AlikeIn]
  | v :: vs, [] => by simp [AlikeIn]
  | v :: vs, v' :: vs' => by
    have ih : AlikeIn R vs vs' ↔ List.Forall₂ (Alike R) vs vs' := alikeIn_iff
    simp [AlikeIn, ih]

/-- Lists of fields are alike if they are field by field, under the same names. -/
theorem alikeOf_iff : ∀ {fs fs' : List (String × Value)},
    AlikeOf R fs fs' ↔ List.Forall₂ (FieldAlike R) fs fs'
  | [], fs' => by cases fs' <;> simp [AlikeOf]
  | (k, v) :: fs, [] => by simp [AlikeOf]
  | (k, v) :: fs, (k', v') :: fs' => by
    have ih : AlikeOf R fs fs' ↔ List.Forall₂ (FieldAlike R) fs fs' := alikeOf_iff
    simp only [AlikeOf, List.forall₂_cons, FieldAlike, ← ih]
    constructor
    · rintro ⟨v', fs', h, hv, hfs⟩
      cases h
      exact ⟨⟨rfl, hv⟩, hfs⟩
    · rintro ⟨⟨rfl, hv⟩, hfs⟩
      exact ⟨v', fs', rfl, hv, hfs⟩

/-- Lists of alike values are alike as values. -/
theorem alike_list {vs vs' : List Value} (h : List.Forall₂ (Alike R) vs vs') :
    Alike R (.list vs) (.list vs') := by
  simpa [Alike, alikeIn_iff] using h

/-- Objects of alike fields are alike as values. -/
theorem alike_object {fs fs' : List (String × Value)} (h : List.Forall₂ (FieldAlike R) fs fs') :
    Alike R (.object fs) (.object fs') := by
  simpa [Alike, alikeOf_iff] using h

/-- Handles that are related are alike as values. -/
theorem alike_handle {h h' : Handle} (hR : R h h') : Alike R (.handle h) (.handle h') := by
  simpa [Alike] using hR

mutual

/-- The handles of values that are alike are related in order. -/
theorem Alike.handles : ∀ {v v' : Value}, Alike R v v' → List.Forall₂ R v.handles v'.handles
  | .null, _, rfl | .bool _, _, rfl | .int _, _, rfl | .float _, _, rfl | .text _, _, rfl
  | .function _, _, rfl | .native _, _, rfl => .nil
  | .handle _, _, ⟨_, rfl, hR⟩ => .cons hR .nil
  | .list _, _, ⟨_, rfl, hvs⟩ => AlikeIn.handles hvs
  | .object _, _, ⟨_, rfl, hfs⟩ => AlikeOf.handles hfs

theorem AlikeIn.handles : ∀ {vs vs' : List Value},
    AlikeIn R vs vs' → List.Forall₂ R (handlesIn vs) (handlesIn vs')
  | [], _, rfl => .nil
  | _ :: _, _, ⟨_, _, rfl, hv, hvs⟩ => List.rel_append (Alike.handles hv) (AlikeIn.handles hvs)

theorem AlikeOf.handles : ∀ {fs fs' : List (String × Value)},
    AlikeOf R fs fs' → List.Forall₂ R (handlesOf fs) (handlesOf fs')
  | [], _, rfl => .nil
  | _ :: _, _, ⟨_, _, rfl, hv, hfs⟩ => List.rel_append (Alike.handles hv) (AlikeOf.handles hfs)

end

/-- Relatedness in order of two concatenations whose first parts are equally long. -/
theorem forall₂_append_inv {as as' bs bs' : List Handle} (hlen : as.length = as'.length)
    (h : List.Forall₂ S (as ++ bs) (as' ++ bs')) :
    List.Forall₂ S as as' ∧ List.Forall₂ S bs bs' := by
  have ht := List.forall₂_take as.length h
  have hd := List.forall₂_drop as.length h
  rw [List.take_left, hlen, List.take_left] at ht
  rw [List.drop_left, hlen, List.drop_left] at hd
  exact ⟨ht, hd⟩

mutual

/-- Values that are alike in one way are so in another, if their handles are
related in that way. -/
theorem Alike.of_handles : ∀ {v v' : Value},
    Alike R v v' → List.Forall₂ S v.handles v'.handles → Alike S v v'
  | .null, _, rfl, _ | .bool _, _, rfl, _ | .int _, _, rfl, _ | .float _, _, rfl, _
  | .text _, _, rfl, _ | .function _, _, rfl, _ | .native _, _, rfl, _ => rfl
  | .handle _, _, ⟨_, rfl, _⟩, .cons hS _ => ⟨_, rfl, hS⟩
  | .list _, _, ⟨_, rfl, hvs⟩, hS => ⟨_, rfl, AlikeIn.of_handles hvs hS⟩
  | .object _, _, ⟨_, rfl, hfs⟩, hS => ⟨_, rfl, AlikeOf.of_handles hfs hS⟩

theorem AlikeIn.of_handles : ∀ {vs vs' : List Value}, AlikeIn R vs vs' →
    List.Forall₂ S (handlesIn vs) (handlesIn vs') → AlikeIn S vs vs'
  | [], _, rfl, _ => rfl
  | _ :: _, _, ⟨_, _, rfl, hv, hvs⟩, hS =>
    have ⟨h₁, h₂⟩ := forall₂_append_inv hv.handles.length_eq hS
    ⟨_, _, rfl, Alike.of_handles hv h₁, AlikeIn.of_handles hvs h₂⟩

theorem AlikeOf.of_handles : ∀ {fs fs' : List (String × Value)}, AlikeOf R fs fs' →
    List.Forall₂ S (handlesOf fs) (handlesOf fs') → AlikeOf S fs fs'
  | [], _, rfl, _ => rfl
  | _ :: _, _, ⟨_, _, rfl, hv, hfs⟩, hS =>
    have ⟨h₁, h₂⟩ := forall₂_append_inv hv.handles.length_eq hS
    ⟨_, _, rfl, Alike.of_handles hv h₁, AlikeOf.of_handles hfs h₂⟩

end

theorem Alike.mono {v v' : Value} (h : Alike R v v') (hRS : ∀ h h', R h h' → S h h') :
    Alike S v v' :=
  h.of_handles (h.handles.imp hRS)

mutual

/-- Every value is like itself, as far as its handles go. -/
theorem alike_self : ∀ v : Value, Alike Eq v v
  | .null | .bool _ | .int _ | .float _ | .text _ | .function _ | .native _ => rfl
  | .handle _ => ⟨_, rfl, rfl⟩
  | .list vs => ⟨_, rfl, alikeIn_self vs⟩
  | .object fs => ⟨_, rfl, alikeOf_self fs⟩

theorem alikeIn_self : ∀ vs : List Value, AlikeIn Eq vs vs
  | [] => rfl
  | v :: vs => ⟨_, _, rfl, alike_self v, alikeIn_self vs⟩

theorem alikeOf_self : ∀ fs : List (String × Value), AlikeOf Eq fs fs
  | [] => rfl
  | (_, v) :: fs => ⟨_, _, rfl, alike_self v, alikeOf_self fs⟩

end

/-- A value whose handles are related to themselves is like itself. -/
theorem alike_refl {v : Value} (h : List.Forall₂ R v.handles v.handles) : Alike R v v :=
  (alike_self v).of_handles h

mutual

/-- Values that are alike up to equal handles are equal. -/
theorem Alike.eq : ∀ {v v' : Value}, Alike Eq v v' → v' = v
  | .null, _, h | .bool _, _, h | .int _, _, h | .float _, _, h | .text _, _, h
  | .function _, _, h | .native _, _, h => h
  | .handle _, _, ⟨_, rfl, rfl⟩ => rfl
  | .list _, _, ⟨_, rfl, hvs⟩ => congrArg Value.list (AlikeIn.eq hvs)
  | .object _, _, ⟨_, rfl, hfs⟩ => congrArg Value.object (AlikeOf.eq hfs)

theorem AlikeIn.eq : ∀ {vs vs' : List Value}, AlikeIn Eq vs vs' → vs' = vs
  | [], _, h => h
  | _ :: _, _, ⟨_, _, rfl, hv, hvs⟩ => congrArg₂ List.cons (Alike.eq hv) (AlikeIn.eq hvs)

theorem AlikeOf.eq : ∀ {fs fs' : List (String × Value)}, AlikeOf Eq fs fs' → fs' = fs
  | [], _, h => h
  | (_, _) :: _, _, ⟨_, _, rfl, hv, hfs⟩ =>
    congrArg₂ List.cons (congrArg _ (Alike.eq hv)) (AlikeOf.eq hfs)

end

mutual

/-- Values that are alike have the same datum. -/
theorem Alike.toJson_eq : ∀ {v v' : Value}, Alike R v v' → v'.toJson = v.toJson
  | .null, _, rfl | .bool _, _, rfl | .int _, _, rfl | .float _, _, rfl | .text _, _, rfl
  | .function _, _, rfl | .native _, _, rfl | .handle _, _, ⟨_, rfl, _⟩ => rfl
  | .list _, _, ⟨_, rfl, hvs⟩ => by rw [toJson, toJson, AlikeIn.toJson_eq hvs]
  | .object _, _, ⟨_, rfl, hfs⟩ => by rw [toJson, toJson, AlikeOf.toJson_eq hfs]

theorem AlikeIn.toJson_eq : ∀ {vs vs' : List Value},
    AlikeIn R vs vs' → toJsonIn vs' = toJsonIn vs
  | [], _, rfl => rfl
  | _ :: _, _, ⟨_, _, rfl, hv, hvs⟩ => by
    rw [toJsonIn, toJsonIn, Alike.toJson_eq hv, AlikeIn.toJson_eq hvs]

theorem AlikeOf.toJson_eq : ∀ {fs fs' : List (String × Value)},
    AlikeOf R fs fs' → toJsonOf fs' = toJsonOf fs
  | [], _, rfl => rfl
  | _ :: _, _, ⟨_, _, rfl, hv, hfs⟩ => by
    rw [toJsonOf, toJsonOf, Alike.toJson_eq hv, AlikeOf.toJson_eq hfs]

end

variable {v v' u u' : Value}

/-- Alike values are of one kind. -/
theorem Alike.kind_eq (h : Alike R v v') : v'.kind = v.kind := by
  cases v with
  | list vs =>
    obtain ⟨vs', rfl, -⟩ := h
    rfl
  | object fs =>
    obtain ⟨fs', rfl, -⟩ := h
    rfl
  | handle a =>
    obtain ⟨a', rfl, -⟩ := h
    rfl
  | _ =>
    obtain rfl := h
    rfl

/-- Alike values are both true or both false. -/
theorem Alike.isTruthy_eq (h : Alike R v v') : v'.isTruthy = v.isTruthy := by
  cases v with
  | list vs =>
    obtain ⟨vs', rfl, -⟩ := h
    rfl
  | object fs =>
    obtain ⟨fs', rfl, -⟩ := h
    rfl
  | handle a =>
    obtain ⟨a', rfl, -⟩ := h
    rfl
  | _ =>
    obtain rfl := h
    rfl

/-- Nothing that script code sees of a single value depends on numbers. -/
theorem Alike.inspect_eq (h : Alike R v v') : v'.inspect = v.inspect := by
  have hk := h.kind_eq
  have hj := h.toJson_eq
  -- handles are inspected as handles, and all else by what it holds
  cases v with
  | list vs =>
    obtain ⟨vs', rfl, hvs⟩ := h
    have hlen : vs'.length = vs.length := (alikeIn_iff.mp hvs).length_eq.symm
    simp only [inspect, hj, hk, bool?, int?, float?, text?, length?, hlen]
  | object fs =>
    obtain ⟨fs', rfl, -⟩ := h
    simp only [inspect, hj, hk, bool?, int?, float?, text?, length?]
  | handle a =>
    obtain ⟨a', rfl, -⟩ := h
    simp only [inspect, hj, hk, bool?, int?, float?, text?, length?]
  | _ =>
    obtain rfl := h
    rfl

/-- Values of different kinds are different. -/
theorem same_of_kind_ne (h : v.kind ≠ u.kind) : v.same u = false := by
  cases v with
  | handle a | function c | native n =>
    cases u <;> first | rfl | exact absurd rfl h
  | _ => rfl

/-- Identity is the same in both runs if related handles are paired one to one. -/
theorem Alike.same_eq (hR : ∀ {h h' g g'}, R h h' → R g g' → (h = g ↔ h' = g'))
    (hv : Alike R v v') (hu : Alike R u u') : v'.same u' = v.same u := by
  -- values of one kind are compared by their data, and handles by being the same
  by_cases hk : v.kind = u.kind
  · cases v with
    | handle a =>
      cases u with
      | handle b =>
        obtain ⟨a', rfl, ha⟩ := hv
        obtain ⟨b', rfl, hb⟩ := hu
        simp only [same, hR ha hb]
      | _ => cases hk
    | function c | native n =>
      obtain rfl := hv
      cases u with
      | function d | native m =>
        obtain rfl := hu
        rfl
      | _ => cases hk
    | list vs =>
      obtain ⟨vs', rfl, -⟩ := hv
      rfl
    | object fs =>
      obtain ⟨fs', rfl, -⟩ := hv
      rfl
    | _ =>
      obtain rfl := hv
      rfl
  · have hk' : v'.kind ≠ u'.kind := by rwa [hv.kind_eq, hu.kind_eq]
    rw [same_of_kind_ne hk, same_of_kind_ne hk']

/-- What a handle-free report stands for is alike in any way. -/
theorem alike_of_handles_eq_nil (h : v.handles = []) : Alike R v v :=
  alike_refl (by rw [h]; exact .nil)

mutual

/-- The value of a datum is plain. -/
theorem handles_ofJson : ∀ j : Json, (ofJson j).handles = []
  | .null => rfl
  | .bool _ => rfl
  | .int i => by
    rw [ofJson, ofInt]
    split <;> rfl
  | .float _ _ => rfl
  | .text _ => rfl
  | .list js => by rw [ofJson, handles, handles_ofJsonIn js]
  | .object fields => by rw [ofJson, handles, handles_ofJsonOf fields]

theorem handles_ofJsonIn : ∀ js : List Json, handlesIn (ofJsonIn js) = []
  | [] => rfl
  | j :: js => by rw [ofJsonIn, handlesIn, handles_ofJson j, handles_ofJsonIn js, List.nil_append]

theorem handles_ofJsonOf : ∀ fields : List (String × Json), handlesOf (ofJsonOf fields) = []
  | [] => rfl
  | (_, j) :: fields => by
    rw [ofJsonOf, handlesOf, handles_ofJson j, handles_ofJsonOf fields, List.nil_append]

end

end Value

/-! ### Parcels -/

/-- Parcels that differ in numbers only, these being related. -/
inductive Parcel.Alike (K : ObjectId → ObjectId → Prop) : Parcel → Parcel → Prop where
  | data (text : String) : Alike K (.data text) (.data text)
  | reference {i i' : ObjectId} (h : K i i') : Alike K (.reference i) (.reference i')
  | wrapped (key : Key) : Alike K (.wrapped key) (.wrapped key)

theorem Parcel.Alike.mono {K K' : ObjectId → ObjectId → Prop} {p p' : Parcel}
    (h : p.Alike K p') (hK : ∀ i i', K i i' → K' i i') : p.Alike K' p' := by
  cases h with
  | data text => exact .data text
  | reference h => exact .reference (hK _ _ h)
  | wrapped key => exact .wrapped key

/-! ### Reports -/

mutual

/-- Described values that differ in numbers only, these being related. -/
def Described.Alike (K : ObjectId → ObjectId → Prop) : Described → Described → Prop
  | .list ds, d' => ∃ ds', d' = .list ds' ∧ Described.AlikeIn K ds ds'
  | .object fs, d' => ∃ fs', d' = .object fs' ∧ Described.AlikeOf K fs fs'
  | .handle form i, d' => ∃ i', d' = .handle form i' ∧ K i i'
  | d, d' => d' = d

/-- Lists of described values that are alike. -/
def Described.AlikeIn (K : ObjectId → ObjectId → Prop) :
    List Described → List Described → Prop
  | [], ds' => ds' = []
  | d :: ds, es' =>
    ∃ d' ds', es' = d' :: ds' ∧ Described.Alike K d d' ∧ Described.AlikeIn K ds ds'

/-- Fields whose described values are alike. -/
def Described.AlikeOf (K : ObjectId → ObjectId → Prop) :
    List (String × Described) → List (String × Described) → Prop
  | [], fs' => fs' = []
  | (k, d) :: fs, gs' =>
    ∃ d' fs', gs' = (k, d') :: fs' ∧ Described.Alike K d d' ∧ Described.AlikeOf K fs fs'

end

mutual

/-- Descriptions that are alike up to equal numbers are equal. -/
theorem Described.Alike.eq (hK : ∀ i i', K i i' → i = i') :
    ∀ {d d' : Described}, d.Alike K d' → d' = d
  | .null, _, h | .bool _, _, h | .int _, _, h | .float _, _, h | .text _, _, h
  | .function _ _, _, h | .native _, _, h => h
  | .handle _ _, _, ⟨_, rfl, h⟩ => by rw [hK _ _ h]
  | .list _, _, ⟨_, rfl, hds⟩ => congrArg Described.list (Described.AlikeIn.eq hK hds)
  | .object _, _, ⟨_, rfl, hfs⟩ => congrArg Described.object (Described.AlikeOf.eq hK hfs)

/-- Descriptions of items that are alike up to equal numbers are equal. -/
theorem Described.AlikeIn.eq (hK : ∀ i i', K i i' → i = i') :
    ∀ {ds ds' : List Described}, Described.AlikeIn K ds ds' → ds' = ds
  | [], _, h => h
  | _ :: _, _, ⟨_, _, rfl, hd, hds⟩ =>
    congrArg₂ List.cons (Described.Alike.eq hK hd) (Described.AlikeIn.eq hK hds)

/-- Descriptions of fields that are alike up to equal numbers are equal. -/
theorem Described.AlikeOf.eq (hK : ∀ i i', K i i' → i = i') :
    ∀ {fs fs' : List (String × Described)}, Described.AlikeOf K fs fs' → fs' = fs
  | [], _, h => h
  | (_, _) :: _, _, ⟨_, _, rfl, hd, hfs⟩ =>
    congrArg₂ List.cons (congrArg _ (Described.Alike.eq hK hd)) (Described.AlikeOf.eq hK hfs)

end

/-- Reports that differ in numbers only, these being related, or in statistics. -/
inductive Answer.Renamed (L : License) (K : ObjectId → ObjectId → Prop) :
    Answer → Answer → Prop where
  | same (a : Answer) : Renamed L K a a
  | value {d d' : Described} (h : d.Alike K d') : Renamed L K (.value d) (.value d')
  | parcel {p p' : Parcel} (h : p.Alike K p') : Renamed L K (.parcel p) (.parcel p')
  | packed {p p' : Parcel} (n : Nat) (h : p.Alike K p') :
    Renamed L K (.packed p n) (.packed p' n)
  | stats {s s' : Stats} (h : L.IsExact → s = s') : Renamed L K (.stats s) (.stats s')

/-- Reports that are the same up to some renaming. -/
def Answer.Alike (L : License) (a a' : Answer) : Prop :=
  ∃ ρ : Renaming L, a.Renamed L ρ.rel a'

namespace Answer

variable {a a' : Answer}

/-- The renaming that leaves all numbers as they are. -/
def identity (L : License) : Renaming L := ⟨Eq, by rintro i _ j _ rfl rfl; rfl, fun _ h => h⟩

theorem Renamed.alike {ρ : Renaming L} (h : a.Renamed L ρ.rel a') : a.Alike L a' := ⟨ρ, h⟩

theorem alike_self (L : License) (a : Answer) : a.Alike L a := ⟨identity L, .same a⟩

/-- Under an exact license alike answers are equal. -/
theorem Alike.eq (h : a.Alike L a') (hL : L.IsExact) : a' = a := by
  obtain ⟨ρ, h⟩ := h
  cases h with
  | same a => rfl
  | value h => rw [h.eq fun _ _ => ρ.eq_of_exact hL]
  | parcel h | packed n h =>
    cases h with
    | data text => rfl
    | reference h => rw [ρ.eq_of_exact hL h]
    | wrapped key => rfl
  | stats h => rw [h hL]

/-- Script code gets the same plain value out of reports that are alike. -/
theorem Alike.toValue_alike (h : a.Alike L a') :
    (Script.valueOfAnswer a).Alike R (Script.valueOfAnswer a') := by
  obtain ⟨ρ, h⟩ := h
  cases h with
  | same a =>
    refine Value.alike_of_handles_eq_nil ?_
    cases a <;> rfl
  | value h => rfl
  | parcel h => rfl
  | packed n h => rfl
  | stats h => rfl

end Answer

/-- What comes of a step in two runs. -/
inductive Outcome.Alike (L : License) (R : Handle → Handle → Prop) : Outcome → Outcome → Prop where
  | value {v v' : Value} (h : v.Alike R v') : Alike L R (.value v) (.value v')
  | answer {a a' : Answer} (h : a.Alike L a') : Alike L R (.answer a) (.answer a')

/-- The outcomes of a step as values are alike, with handles as themselves and answers as
data. -/
theorem Outcome.Alike.toValue {r r' : Outcome} (h : r.Alike L R r') :
    (Script.Outcome.toValue r).Alike R (Script.Outcome.toValue r') := by
  cases h with
  | value h => exact h
  | answer h => exact h.toValue_alike

end Crossing
