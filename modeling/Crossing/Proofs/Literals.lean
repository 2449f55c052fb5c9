import Crossing.Proofs.Readings
import Crossing.Proofs.RoundTrips

/-!
# Literals

Source that is the text of a datum stands for the datum. It reaches the host by way of
script code: a text is read, becomes a script value, is packed, and is read again by the
host. The host makes the same of it as of the datum itself.

- `Interpreter.Embodies`: an object is what a datum stands for;
- `Host.builds_embodied`: the host makes such an object of a datum;
- `Interpreter.equalWithin_of_embodies`: what embodies one datum is `equal`;
- `Json.narrow`: the datum that crosses, in which integers beyond fixnums are doubles;
- `Border.conveys_literal`: the value of a datum brings an object that embodies it;
- `Transcript.literals_read_alike`: so does source that is the text of a datum.
-/

namespace Crossing

open Proc

variable {α : Type} {i : Interpreter} {w w₁ : World} {o o' : Obj} {j : Json} {below below' n : Nat}
  {items : List Json} {fields : List (String × Json)} {os os' : List Obj}

/-! ### Objects of data -/

/-- The number of an integer: a fixnum, or else the nearest double. -/
def Obj.ofInt (i : Int) : Obj :=
  match Fixnum.ofInt? i with
  | some i => .int i
  | none => .float (Float.ofInt i)

namespace Interpreter

mutual

/-- An object is what a datum stands for: `nil` for null and falsehood, the symbol of truth,
the number of an integer or a double, a string with the text, a vector of the objects of
the items, or a list of the keywords of the names and the objects of the values in turn.
All cells that are made for it are before the address `below`. -/
def Embodies (i : Interpreter) : (below : Nat) → Json → Obj → Prop
  | _, .null, o => o = .nil
  | _, .bool false, o => o = .nil
  | _, .bool true, o => ∃ a, o = .ref a ∧ i.find? truthName = some a
  | _, .int n, o => o = .ofInt n
  | _, .float x _, o => o = .float x
  | _, .text s, o => ∃ a, o = .ref a ∧ i.heap.get? a = some (.text s)
  | below, .list items, o => ∃ a os, o = .ref a ∧ a < below ∧
      i.heap.get? a = some (.vector os) ∧ i.EmbodiesIn a items os
  | below, .object fields, o => ∃ lo os, i.heap.ListFrom lo o os ∧ lo + os.length ≤ below ∧
      i.EmbodiesOf lo fields os

/-- Objects are what data stand for, one by one. -/
def EmbodiesIn (i : Interpreter) : (below : Nat) → List Json → List Obj → Prop
  | _, [], os => os = []
  | below, j :: js, os => ∃ o rest, os = o :: rest ∧ i.Embodies below j o ∧
      i.EmbodiesIn below js rest

/-- Objects are the keywords and the values of fields in turn. -/
def EmbodiesOf (i : Interpreter) : (below : Nat) → List (String × Json) → List Obj → Prop
  | _, [], os => os = []
  | below, (name, j) :: fields, os => ∃ a o rest, os = .ref a :: o :: rest ∧
      i.find? (":" ++ name) = some a ∧ i.Embodies below j o ∧ i.EmbodiesOf below fields rest

end

/-- What data are made of has stayed as it was: strings, vectors and pairs, and what names
stand for. -/
structure Spares (i k : Interpreter) : Prop where
  text : ∀ {a s}, i.heap.get? a = some (.text s) → k.heap.get? a = some (.text s)
  vector : ∀ {a os}, i.heap.get? a = some (.vector os) → k.heap.get? a = some (.vector os)
  pair : ∀ {a x y}, i.heap.get? a = some (.cons x y) → k.heap.get? a = some (.cons x y)
  names : ∀ {name a}, i.find? name = some a → k.find? name = some a

/-- What extends an interpreter spares it. -/
theorem Extends.spares {k : Interpreter} (hik : i.Extends k) : i.Spares k :=
  ⟨hik.cell, hik.cell, hik.cell, hik.names⟩

mutual

/-- What has been made stays what it is. -/
theorem Embodies.of_spares {k : Interpreter} (hik : i.Spares k) :
    ∀ {below below' : Nat} {j : Json} {o : Obj}, below ≤ below' →
      i.Embodies below j o → k.Embodies below' j o
  | _, _, .null, _, _, h | _, _, .bool false, _, _, h | _, _, .int _, _, _, h
  | _, _, .float _ _, _, _, h => h
  | _, _, .bool true, _, _, ⟨a, ho, ha⟩ => ⟨a, ho, hik.names ha⟩
  | _, _, .text _, _, _, ⟨a, ho, ha⟩ => ⟨a, ho, hik.text ha⟩
  | _, _, .list _, _, hle, ⟨a, os, ho, hlt, ha, hos⟩ =>
    ⟨a, os, ho, Nat.lt_of_lt_of_le hlt hle, hik.vector ha, hos.of_spares hik (Nat.le_refl a)⟩
  | _, _, .object _, _, hle, ⟨lo, os, ho, hlen, hos⟩ =>
    ⟨lo, os, ho.of_pairs hik.pair, Nat.le_trans hlen hle, hos.of_spares hik (Nat.le_refl lo)⟩

/-- Items are embodied for as long as nothing writes to them. -/
theorem EmbodiesIn.of_spares {k : Interpreter} (hik : i.Spares k) :
    ∀ {below below' : Nat} {items : List Json} {os : List Obj}, below ≤ below' →
      i.EmbodiesIn below items os → k.EmbodiesIn below' items os
  | _, _, [], _, _, h => h
  | _, _, _ :: _, _, hle, ⟨o, rest, hos, ho, hrest⟩ =>
    ⟨o, rest, hos, ho.of_spares hik hle, hrest.of_spares hik hle⟩

/-- Fields are embodied for as long as nothing writes to them. -/
theorem EmbodiesOf.of_spares {k : Interpreter} (hik : i.Spares k) :
    ∀ {below below' : Nat} {fields : List (String × Json)} {os : List Obj}, below ≤ below' →
      i.EmbodiesOf below fields os → k.EmbodiesOf below' fields os
  | _, _, [], _, _, h => h
  | _, _, (_, _) :: _, _, hle, ⟨a, o, rest, hos, ha, ho, hrest⟩ =>
    ⟨a, o, rest, hos, hik.names ha, ho.of_spares hik hle, hrest.of_spares hik hle⟩

end

/-! ### Equality -/

/-- A name is interned as a symbol, or it is `nil`. -/
theorem Interned.symbol {name : String} {a : Addr} (hi : i.Interned) (hnil : name ≠ "nil")
    (ha : i.find? name = some a) :
    ∃ value function, i.heap.get? a = some (.symbol name value function) := by
  obtain ⟨h, -⟩ | ⟨_, value, function, heq, hsymbol⟩ := hi _ (mem_symbols_of_find? ha)
  · exact absurd h hnil
  · cases heq
    exact ⟨value, function, hsymbol⟩

/-- A symbol is equal to itself. -/
theorem equalWithin_symbol {a : Addr} {name : String} {value function : Option Obj}
    (ha : i.heap.get? a = some (.symbol name value function)) :
    i.heap.equalWithin (n + 1) (.ref a) (.ref a) = true := by
  simp only [Heap.equalWithin, Heap.shape_ref ha, Obj.eq_refl]

/-- Lists are equal if their items are. -/
theorem equalWithin_list {h : Heap} {lo lo' : Nat} (ho : h.ListFrom lo o os)
    (ho' : h.ListFrom lo' o' os') (hos : List.Forall₂ (fun a b => ∀ n : Nat, lo < n →
      h.equalWithin n a b = true) os os') (hn : lo + os.length < n) :
    h.equalWithin n o o' = true := by
  -- the induction is on the items; the lists are taken apart pair by pair
  induction hos generalizing o o' n with
  | nil =>
    cases ho
    cases ho'
    obtain ⟨n, rfl⟩ : ∃ m, n = m + 1 := ⟨n - 1, by omega⟩
    rfl
  | cons hhead _ ih =>
    obtain ⟨n, rfl⟩ : ∃ m, n = m + 1 := ⟨n - 1, by omega⟩
    rw [List.length_cons] at hn
    cases ho with
    | cons _ hpair htail =>
      cases ho' with
      | cons _ hpair' htail' =>
        have hrest := ih (n := n) htail htail' (by omega)
        simp only [Heap.equalWithin, Heap.shape_ref hpair, Heap.shape_ref hpair',
          hhead n (by omega), hrest, Bool.and_self]

mutual

/-- What embodies one datum is equal: with more levels than there are cells of the first. -/
theorem equalWithin_of_embodies (hi : i.Interned) :
    ∀ (j : Json) {below below' : Nat} {o o' : Obj} {n : Nat}, i.Embodies below j o →
      i.Embodies below' j o' → below < n → i.heap.equalWithin n o o' = true
  | .null, _, _, _, _, n + 1, rfl, rfl, _ | .bool false, _, _, _, _, n + 1, rfl, rfl, _ => rfl
  | .bool true, _, _, _, _, n + 1, ⟨a, rfl, ha⟩, ⟨b, rfl, hb⟩, _ => by
    obtain rfl := Option.some.inj (ha.symm.trans hb)
    obtain ⟨value, function, hsymbol⟩ := hi.symbol (by decide) ha
    exact equalWithin_symbol hsymbol
  | .int x, _, _, _, _, n + 1, rfl, rfl, _ => by
    unfold Obj.ofInt
    split <;> simp [Heap.equalWithin, Heap.shape]
  | .float x _, _, _, _, _, n + 1, rfl, rfl, _ => by simp [Heap.equalWithin, Heap.shape]
  | .text s, _, _, _, _, n + 1, ⟨a, rfl, ha⟩, ⟨b, rfl, hb⟩, _ => by
    simp [Heap.equalWithin, Heap.shape_ref ha, Heap.shape_ref hb]
  | .list items, _, _, _, _, n + 1, ⟨a, os, rfl, hlt, ha, hos⟩, ⟨b, os', rfl, _, hb, hos'⟩, hn => by
    have hitems := equalWithin_of_embodiesIn hi items hos hos'
    simp only [Heap.equalWithin, Heap.shape_ref ha, Heap.shape_ref hb, hitems.length_eq,
      beq_self_eq_true, Bool.true_and, List.all_eq_true]
    exact fun p hp => (List.forall₂_iff_zip.mp hitems).2 hp n
      (Nat.lt_of_lt_of_le hlt (Nat.le_of_lt_succ hn))
  | .object fields, _, _, _, _, n + 1, ⟨lo, os, ho, hlen, hos⟩, ⟨lo', os', ho', _, hos'⟩, hn =>
    equalWithin_list ho ho' (equalWithin_of_embodiesOf hi fields hos hos') (by omega)

theorem equalWithin_of_embodiesIn (hi : i.Interned) :
    ∀ (items : List Json) {below below' : Nat} {os os' : List Obj}, i.EmbodiesIn below items os →
      i.EmbodiesIn below' items os' →
      List.Forall₂ (fun a b => ∀ n : Nat, below < n → i.heap.equalWithin n a b = true) os os'
  | [], _, _, _, _, rfl, rfl => .nil
  | j :: js, _, _, _, _, ⟨o, rest, rfl, ho, hrest⟩, ⟨o', rest', rfl, ho', hrest'⟩ =>
    .cons (fun _ hn => equalWithin_of_embodies hi j ho ho' hn)
      (equalWithin_of_embodiesIn hi js hrest hrest')

theorem equalWithin_of_embodiesOf (hi : i.Interned) :
    ∀ (fields : List (String × Json)) {below below' : Nat} {os os' : List Obj},
      i.EmbodiesOf below fields os → i.EmbodiesOf below' fields os' →
      List.Forall₂ (fun a b => ∀ n : Nat, below < n → i.heap.equalWithin n a b = true) os os'
  | [], _, _, _, _, rfl, rfl => .nil
  | (name, j) :: fields, _, _, _, _, ⟨a, o, rest, rfl, ha, ho, hrest⟩,
      ⟨b, o', rest', rfl, hb, ho', hrest'⟩ => by
    obtain rfl := Option.some.inj (ha.symm.trans hb)
    obtain ⟨value, function, hsymbol⟩ := hi.symbol (keyword_ne name (by decide)) ha
    refine .cons (fun n hn => ?_) (.cons (fun _ hn => equalWithin_of_embodies hi j ho ho' hn)
      (equalWithin_of_embodiesOf hi fields hrest hrest'))
    obtain ⟨n, rfl⟩ : ∃ m, n = m + 1 := ⟨n - 1, by omega⟩
    exact equalWithin_symbol hsymbol

end

end Interpreter

/-! ### What the host makes of data -/

namespace Host

mutual

/-- The host makes an object that embodies the datum. -/
theorem builds_embodied : ∀ (j : Json) (w : World),
    (ofDatum j).Builds w fun o w₁ => w₁.host.Embodies w₁.host.heap.size j o
  | .null, w | .bool false, w | .int _, w | .float _ _, w => builds_pure rfl
  | .bool true, w => builds_intern (by decide)
  | .text s, w => by
    refine (builds_make _).mono fun o w₁ _ ho => ?_
    obtain ⟨rfl, hcell, -⟩ := ho
    exact ⟨_, rfl, hcell⟩
  | .list items, w => by
    refine (builds_embodiedIn items w).bind fun os w₁ _ hos =>
      (builds_make _).mono fun o w₂ hb ho => ?_
    obtain ⟨rfl, hcell, hsize⟩ := ho
    exact ⟨_, os, rfl, hsize ▸ Nat.lt_succ_self _, hcell, hos.of_spares hb.host.spares (Nat.le_refl _)⟩
  | .object fields, w => by
    refine (builds_embodiedOf fields w).bind fun os w₁ _ hos =>
      (builds_list os (Nat.le_refl _)).mono fun o w₂ hb ho => ?_
    exact ⟨_, os, ho.1, ho.2, hos.of_spares hb.host.spares (Nat.le_refl _)⟩

theorem builds_embodiedIn : ∀ (items : List Json) (w : World),
    (ofData items).Builds w fun os w₁ => w₁.host.EmbodiesIn w₁.host.heap.size items os
  | [], w => builds_pure rfl
  | j :: js, w => by
    refine (builds_embodied j w).bind fun o w₁ _ ho =>
      (builds_embodiedIn js w₁).bind fun os w₂ hb hos => ?_
    exact builds_pure ⟨o, os, rfl, ho.of_spares hb.host.spares hb.size_le, hos⟩

theorem builds_embodiedOf : ∀ (fields : List (String × Json)) (w : World),
    (ofFields fields).Builds w fun os w₁ => w₁.host.EmbodiesOf w₁.host.heap.size fields os
  | [], w => builds_pure rfl
  | (name, j) :: fields, w => by
    refine (builds_intern (keyword_ne name (by decide))).bind fun o w₁ _ ho => ?_
    obtain ⟨a, rfl, ha⟩ := ho
    refine (builds_embodied j w₁).bind fun p w₂ hb hp =>
      (builds_embodiedOf fields w₂).bind fun os w₃ hb' hos => ?_
    exact builds_pure ⟨a, p, os, rfl, (hb.trans hb').host.names ha,
      hp.of_spares hb'.host.spares hb'.size_le, hos⟩

end

end Host

/-! ### The datum that crosses -/

namespace Json

mutual

/-- The datum of the script value of a datum: an integer that is no fixnum is a double. -/
def narrow : Json → Json
  | .int i => if Fixnum.ofInt? i = none then ofDouble (Float.ofInt i) else .int i
  | .list items => .list (narrowIn items)
  | .object fields => .object (narrowOf fields)
  | j => j

/-- The items of a list, each narrowed. -/
def narrowIn : List Json → List Json
  | [] => []
  | j :: js => narrow j :: narrowIn js

/-- The fields of an object, each narrowed. -/
def narrowOf : List (String × Json) → List (String × Json)
  | [] => []
  | (name, j) :: fields => (name, narrow j) :: narrowOf fields

end

theorem keys_narrowOf (fields : List (String × Json)) :
    (narrowOf fields).map Prod.fst = fields.map Prod.fst := by
  induction fields with
  | nil => rfl
  | cons p fields ih => exact congrArg (p.1 :: ·) ih

mutual

/-- A narrowed datum has no double and no depth that it had not before. -/
theorem narrow_within : ∀ j : Json, j.isDatum = true → j.narrow.Within j
  | .null, _ | .float _ _, _ | .text _, _ | .bool _, _ => ⟨rfl, fun _ h => h, Nat.le_refl _⟩
  | .int i, _ => structural_within (.int i)
  | .list items, h => by
    obtain ⟨hdatum, hdoubles, hnesting⟩ := narrowIn_within items h
    exact ⟨hdatum, hdoubles, Nat.succ_le_succ hnesting⟩
  | .object fields, h => by
    obtain ⟨horder, hfields⟩ := Bool.and_eq_true_iff.mp h
    obtain ⟨hdatum, hdoubles, hnesting⟩ := narrowOf_within fields hfields
    refine ⟨?_, hdoubles, Nat.succ_le_succ hnesting⟩
    rw [narrow, isDatum, keys_narrowOf, horder, hdatum, Bool.and_self]

/-- Narrowed items have no double and no depth that they had not before. -/
theorem narrowIn_within : ∀ items : List Json, isDatumIn items = true →
    isDatumIn (narrowIn items) = true ∧
    (∀ x ∈ doublesIn (narrowIn items), x ∈ doublesIn items) ∧
      nestingIn (narrowIn items) ≤ nestingIn items
  | [], _ => ⟨rfl, fun _ h => h, Nat.le_refl _⟩
  | j :: js, h => by
    obtain ⟨hj, hjs⟩ := Bool.and_eq_true_iff.mp h
    obtain ⟨hdatum, hdoubles, hnesting⟩ := narrow_within j hj
    obtain ⟨hdatums, hdoubless, hnestings⟩ := narrowIn_within js hjs
    refine ⟨Bool.and_eq_true_iff.mpr ⟨hdatum, hdatums⟩, fun x hx => ?_, by
      simp only [narrowIn, nestingIn]
      omega⟩
    exact List.mem_append.mpr ((List.mem_append.mp hx).imp (hdoubles x) (hdoubless x))

/-- Narrowed fields have no double and no depth that they had not before. -/
theorem narrowOf_within : ∀ fields : List (String × Json), isDatumOf fields = true →
    isDatumOf (narrowOf fields) = true ∧
    (∀ x ∈ doublesOf (narrowOf fields), x ∈ doublesOf fields) ∧
      nestingOf (narrowOf fields) ≤ nestingOf fields
  | [], _ => ⟨rfl, fun _ h => h, Nat.le_refl _⟩
  | (name, j) :: fields, h => by
    obtain ⟨hj, hfields⟩ := Bool.and_eq_true_iff.mp h
    obtain ⟨hdatum, hdoubles, hnesting⟩ := narrow_within j hj
    obtain ⟨hdatums, hdoubless, hnestings⟩ := narrowOf_within fields hfields
    refine ⟨Bool.and_eq_true_iff.mpr ⟨hdatum, hdatums⟩, fun x hx => ?_, by
      simp only [narrowOf, nestingOf]
      omega⟩
    exact List.mem_append.mpr ((List.mem_append.mp hx).imp (hdoubles x) (hdoubless x))

end

mutual

/-- Narrowing leaves texts alone, and so their NULs. -/
theorem isNulFree_narrow : ∀ j : Json, j.narrow.isNulFree = j.isNulFree
  | .null | .float _ _ | .text _ | .bool _ => rfl
  | .int i => by
    rw [narrow, ofDouble, ofFloat?]
    split
    · split <;> rfl
    · rfl
  | .list items => isNulFree_narrowIn items
  | .object fields => isNulFree_narrowOf fields

theorem isNulFree_narrowIn : ∀ items : List Json,
    isNulFreeIn (narrowIn items) = isNulFreeIn items
  | [] => rfl
  | j :: js => by
    rw [narrowIn, isNulFreeIn, isNulFreeIn, isNulFree_narrow j, isNulFree_narrowIn js]

theorem isNulFree_narrowOf : ∀ fields : List (String × Json),
    isNulFreeOf (narrowOf fields) = isNulFreeOf fields
  | [] => rfl
  | (name, j) :: fields => by
    rw [narrowOf, isNulFreeOf, isNulFreeOf, isNulFree_narrow j, isNulFree_narrowOf fields]

end

/-- An integer that is no fixnum has a finite double if this reads back. -/
theorem isFinite_of_doubles {i : Int} (hi : Fixnum.ofInt? i = none)
    (h : ∀ x ∈ (Json.int i).doubles, readsBack x = true) : (Float.ofInt i).isFinite = true := by
  refine isFinite_of_readsBack (h _ ?_)
  rw [doubles, if_pos hi]
  exact List.mem_singleton_self _

end Json

namespace Host

mutual

/-- The host makes the same of the datum that crosses. -/
theorem ofDatum_narrow : ∀ j : Json, (∀ x ∈ j.doubles, Json.readsBack x = true) →
    ofDatum j.narrow = ofDatum j
  | .null, _ | .float _ _, _ | .text _, _ | .bool _, _ => rfl
  | .int i, h => by
    cases hi : Fixnum.ofInt? i with
    | some x => rw [Json.narrow, if_neg (by rw [hi]; nofun)]
    | none =>
      rw [Json.narrow, if_pos hi, Json.ofDouble_eq (Json.isFinite_of_doubles hi h), ofDatum,
        ofDatum, hi]
  | .list items, h => by rw [Json.narrow, ofDatum, ofDatum, ofData_narrowIn items h]
  | .object fields, h => by rw [Json.narrow, ofDatum, ofDatum, ofFields_narrowOf fields h]

theorem ofData_narrowIn : ∀ items : List Json,
    (∀ x ∈ Json.doublesIn items, Json.readsBack x = true) →
    ofData (Json.narrowIn items) = ofData items
  | [], _ => rfl
  | j :: js, h => by
    obtain ⟨hj, hjs⟩ := List.forall_mem_append.mp h
    rw [Json.narrowIn, ofData, ofData, ofDatum_narrow j hj, ofData_narrowIn js hjs]

theorem ofFields_narrowOf : ∀ fields : List (String × Json),
    (∀ x ∈ Json.doublesOf fields, Json.readsBack x = true) →
    ofFields (Json.narrowOf fields) = ofFields fields
  | [], _ => rfl
  | (name, j) :: fields, h => by
    obtain ⟨hj, hfields⟩ := List.forall_mem_append.mp h
    rw [Json.narrowOf, ofFields, ofFields, ofDatum_narrow j hj, ofFields_narrowOf fields hfields]

end

end Host

namespace Value

mutual

/-- The script value of a datum has the datum that crosses. -/
theorem toJson_ofJson : ∀ j : Json, (∀ x ∈ j.doubles, Json.readsBack x = true) →
    (ofJson j).toJson = .ok j.narrow
  | .null, _ | .text _, _ | .bool _, _ => rfl
  | .float x finite, _ => by rw [ofJson, toJson, Json.ofFloat?, dif_pos finite]; rfl
  | .int i, h => by
    rw [ofJson, ofInt, Json.narrow]
    cases hi : Fixnum.ofInt? i with
    | some x =>
      rw [if_neg nofun]
      change Except.ok (Json.int x.val) = _
      rw [Fixnum.val_of_ofInt? hi]
    | none =>
      have hfinite := Json.isFinite_of_doubles hi h
      simp only [toJson, Json.ofFloat?, dif_pos hfinite, if_true, Json.ofDouble_eq hfinite]
  | .list items, h => by
    rw [ofJson, toJson, toJsonIn_ofJsonIn items h]
    rfl
  | .object fields, h => by
    rw [ofJson, toJson, toJsonOf_ofJsonOf fields h]
    rfl

theorem toJsonIn_ofJsonIn : ∀ items : List Json,
    (∀ x ∈ Json.doublesIn items, Json.readsBack x = true) →
    toJsonIn (ofJsonIn items) = .ok (Json.narrowIn items)
  | [], _ => rfl
  | j :: js, h => by
    obtain ⟨hj, hjs⟩ := List.forall_mem_append.mp h
    rw [ofJsonIn, toJsonIn, toJson_ofJson j hj, toJsonIn_ofJsonIn js hjs]
    rfl

theorem toJsonOf_ofJsonOf : ∀ fields : List (String × Json),
    (∀ x ∈ Json.doublesOf fields, Json.readsBack x = true) →
    toJsonOf (ofJsonOf fields) = .ok (Json.narrowOf fields)
  | [], _ => rfl
  | (name, j) :: fields, h => by
    obtain ⟨hj, hfields⟩ := List.forall_mem_append.mp h
    rw [ofJsonOf, toJsonOf, toJson_ofJson j hj, toJsonOf_ofJsonOf fields hfields]
    rfl

end

end Value

/-! ### From the text to the host -/

/-- A narrowed integer is the number that it was. -/
theorem Json.number?_narrow {i : Int} (h : ∀ x ∈ (Json.int i).doubles, Json.readsBack x = true) :
    (Json.int i).narrow.number? = some (.ofInt i) := by
  rw [Json.narrow]
  cases hi : Fixnum.ofInt? i with
  | some x =>
    rw [if_neg nofun, Json.number?, Obj.ofInt, hi]
  | none =>
    rw [if_pos rfl, Json.ofDouble_eq (Json.isFinite_of_doubles hi h), Json.number?, Obj.ofInt, hi]

namespace Border

/-- The script value of a datum brings an object that embodies the datum. -/
theorem conveys_literal (hw : w.Steady) (hproper : j.Proper Json.maxNesting)
    (hnul : j.isNulFree = true) (hdoubles : ∀ x ∈ j.doubles, Json.readsBack x = true) :
    Conveys (.ofJson j) w fun o w₁ => w₁.host.Embodies w₁.host.heap.size j o := by
  have hj := Value.toJson_ofJson j hdoubles
  obtain ⟨hdatum, hmem, hnesting⟩ := Json.narrow_within j hproper.1
  have hparse : Json.parse j.narrow.render = .ok j.narrow := by
    refine Json.parse_render hdatum (fun x hx => hdoubles x (hmem x hx)) ?_
    have hmax : 0 < Json.maxNesting := by decide
    have hle := hproper.2
    omega
  have hreceive : ∀ w₂ : World, (Host.receive (.data j.narrow.render)).Builds w₂
      fun o w₁ => w₁.host.Embodies w₁.host.heap.size j o := fun w₂ => by
    refine Host.builds_receive hparse ?_
    rw [Host.ofDatum_narrow j hdoubles]
    exact Host.builds_embodied j w₂
  cases hkey : (Value.ofJson j).numberKey? with
  | none => exact conveys_data hkey hj (by rwa [Json.isNulFree_narrow]) fun w₂ _ => hreceive w₂
  | some key =>
    -- a number may cross by a reference that is remembered
    have hnumber : ∃ o, j.narrow.number? = some o ∧
        ∀ w₁ : World, w₁.host.Embodies w₁.host.heap.size j o := by
      cases j with
      | int i => exact ⟨.ofInt i, Json.number?_narrow hdoubles, fun _ => rfl⟩
      | float x finite => exact ⟨.float x, rfl, fun _ => rfl⟩
      | _ => cases hkey
    obtain ⟨o, ho, hembodies⟩ := hnumber
    refine (conveys_number hw.sound.host hw.recallsNumbers hkey hj hparse ho).mono fun o' w₁ h => ?_
    rw [h]
    exact hembodies w₁

end Border

/-- An evaluation of source is in progress. -/
def World.evaluatingSource (w : World) : World :=
  { w with border := { w.border with evaluating := true } }

/-- To evaluate a source starts in a steady world. -/
theorem World.Steady.evaluatingSource (hw : w.Steady) : w.evaluatingSource.Steady := by
  obtain ⟨P, hf⟩ := hw
  have hrest : w.SameRest w.evaluatingSource := by constructor <;> rfl
  refine ⟨P, hf.of_rest hrest hrest ?_ rfl fun _ => rfl⟩
  exact .refl _

namespace Border

/-- Source that is the text of a datum gives what its value is packed as, unless an evaluation
is refused. -/
theorem exists_gives_evaluateSource {s : String} {R : Obj → World → Prop}
    (hadmitted : w.border.isRunning = false ∨ w.border.config.allowNested = true)
    (hevaluator : w.border.evaluator = none) (hparse : Json.parse s = .ok j)
    (hconveys : Conveys (.ofJson j) w.evaluatingSource R) :
    ∃ p w₁, (evaluateSource s).Gives 0 w (.ok p) w₁ ∧ w.host.Extends w₁.host ∧
      (Host.receive p).Builds w₁ R := by
  have henter : Scope.source.enter w = .ok (.leaveSource, w.evaluatingSource) := by
    -- a source is admitted while nothing is in progress, or where nesting is allowed
    have hadmits : (w.border.isRunning && !w.border.config.allowNested) = false := by
      obtain h | h := hadmitted <;> simp [h]
    simp only [Scope.enter, hadmits]
    rfl
  have hliteral : literal s = .ok (.ofJson j) := by
    rw [literal, Json.parse_trimBlanks hparse]
  obtain ⟨p, hs, w₁, hpack, hkeeps, hreceive⟩ := hconveys
  -- the literal is read by script code, and the host is not asked
  have hvalue : (query .evaluator >>= fun e => evaluateWith e s).Gives 0 w.evaluatingSource
      (.ok (.ofJson j)) w.evaluatingSource := by
    refine gives_query_bind ?_
    simp only [Query.ask, show w.evaluatingSource.border.evaluator = none from hevaluator,
      evaluateWith, hliteral]
    exact gives_ofExcept (.ok _)
  have hpacking : (packing (query .evaluator >>= fun e => evaluateWith e s)).Gives 0
      w.evaluatingSource (.ok p) _ :=
    (hvalue.bind (hpack.bind (gives_pure p))).within rfl
  exact ⟨p, _, hpacking.within henter, hkeeps.extends, hreceive _ rfl⟩

end Border

namespace Host

/-- The host function that evaluates source makes of the text of a datum what embodies it. -/
theorem exists_gives_apply_evaluateScript {f : Obj} {s : String} (hw : w.Steady)
    (hadmitted : w.border.isRunning = false ∨ w.border.config.allowNested = true)
    (hevaluator : w.border.evaluator = none)
    (hf : w.host.heap.shape f = .cell (.builtin .evaluateScript))
    (ho : w.host.heap.text? o = some s) (hparse : Json.parse s = .ok j)
    (hnul : j.isNulFree = true) (hdoubles : ∀ x ∈ j.doubles, Json.readsBack x = true) :
    ∃ p w₁, (apply f [o]).Gives 1 w (.ok p) w₁ ∧ w.host.Extends w₁.host ∧
      w₁.host.Embodies w₁.host.heap.size j p := by
  obtain ⟨q, w₁, hsource, hextends, p, w₂, hreceive, hb, hp⟩ :=
    Border.exists_gives_evaluateSource hadmitted hevaluator hparse
      (Border.conveys_literal hw.evaluatingSource (Json.proper_of_parse hparse) hnul hdoubles)
  refine ⟨p, w₂, Gives.perform ?_, hextends.trans hb.host, hp⟩
  have hscript : (evaluateScript o).Gives 0 w (.ok p) w₂ := by
    refine gives_query_bind ?_
    have htext : w.host.heap.asText o = .ok s := by simp only [Heap.asText, ho]
    simp only [Query.ask, htext, check]
    exact hsource.bind hreceive
  refine gives_query_bind ?_
  simp only [Query.ask, hf]
  refine gives_query_bind ?_
  simp only [Query.ask, hf]
  exact hscript

end Host

namespace Transcript

open Moment

/-- In every session in which script code takes in references only while the host keeps
them, however numbers cross, and at every moment at which no script code is running, or at
which source may be evaluated all the same: source that is the text of a datum without a NUL
comes to an object that embodies the datum. What the host then makes of the datum itself
embodies it too, and is `equal` to it. -/
theorem literals_read_alike (config : Config) (steps : List Step)
    {m : Moment (List (Except Failure Answer × List Answer))}
    (hm : Reaches (Licensed .careful) (start config steps) m)
    (hadmitted : m.world.border.isRunning = false ∨ m.world.border.config.allowNested = true)
    (hevaluator : m.world.border.evaluator = none) {f o : Obj} {s : String} {j : Json}
    (hf : m.world.host.heap.shape f = .cell (.builtin .evaluateScript))
    (ho : m.world.host.heap.text? o = some s) (hparse : Json.parse s = .ok j)
    (hnul : j.isNulFree = true) (hdoubles : ∀ x ∈ j.doubles, Json.readsBack x = true) :
    ∃ p w₁ q w₂, (Host.apply f [o]).run m.world = (.ok p, w₁) ∧
      (Host.ofDatum j).run w₁ = (.ok q, w₂) ∧
      w₁.host.Embodies w₁.host.heap.size j p ∧ w₂.host.Embodies w₂.host.heap.size j q ∧
      w₂.host.heap.equal p q = true := by
  have hw := steady_of_reaches hm
  obtain ⟨p, w₁, hscript, hextends, hp⟩ := Host.exists_gives_apply_evaluateScript hw hadmitted
    hevaluator hf ho hparse hnul hdoubles
  obtain ⟨q, w₂, hdatum, hb, hq⟩ := Host.builds_embodied j w₁
  have hinterned : w₂.host.Interned := hb.host.interned (hextends.interned hw.interned)
  have hp₂ := hp.of_spares hb.host.spares hb.size_le
  exact ⟨p, w₁, q, w₂, hscript.run (by decide), hdatum.run (Nat.zero_le _), hp, hq,
    Interpreter.equalWithin_of_embodies hinterned j hp₂ hq (Nat.lt_succ_self _)⟩

/-- A list of an integer beyond fixnums and a string, with a blank in front. -/
def largestAndText : String := " [18446744073709551615, \"a\"]"

/-- The largest integer that the reader of data takes, with a text beside it. -/
theorem parse_largestAndText :
    Json.parse largestAndText = .ok (.list [.int 18446744073709551615, .text "a"]) := by
  with_unfolding_all rfl

/-- A session that evaluates a string of the host. -/
def quotedLiteral : Moment (List (Except Failure Answer × List Answer)) :=
  start .standard [.mk (.runSource "\" [18446744073709551615, \\\"a\\\"]\"") none false]

/-- The host function that evaluates source makes a vector of this string, as the host does of
the datum. -/
theorem literals_read_alike_vector :
    ∃ p w₁ q w₂,
      (Host.apply (.ref 152) [.ref 156]).run (quotedLiteral.after 6).world = (.ok p, w₁) ∧
      (Host.ofDatum (.list [.int 18446744073709551615, .text "a"])).run w₁ = (.ok q, w₂) ∧
      (∃ a os, p = .ref a ∧ w₁.host.heap.get? a = some (.vector os)) ∧
      w₂.host.heap.equal p q = true := by
  obtain ⟨hlicensed, hidle, hevaluator, hf, ho⟩ :
      (∀ i < 6, (quotedLiteral.after i).Licensed .careful) ∧
      (quotedLiteral.after 6).world.border.isRunning = false ∧
      (quotedLiteral.after 6).world.border.evaluator.isNone = true ∧
      (quotedLiteral.after 6).world.host.heap.shape (.ref 152) =
        .cell (.builtin .evaluateScript) ∧
      (quotedLiteral.after 6).world.host.heap.text? (.ref 156) = some largestAndText := by
    rw [quotedLiteral, start_eq]
    decide +kernel
  have hm : Reaches (Licensed .careful) quotedLiteral (quotedLiteral.after 6) :=
    reaches_after hlicensed
  have hdoubles : ∀ x ∈ (Json.list [.int 18446744073709551615, .text "a"]).doubles,
      Json.readsBack x = true := by
    intro x hx
    obtain rfl : x = Float.ofInt 18446744073709551615 := by
      simpa [Json.doubles, Json.doublesIn, Fixnum.ofInt?] using hx
    decide +kernel
  obtain ⟨p, w₁, q, w₂, hscript, hdatum, ⟨a, os, hp, -, hcell, -⟩, -, hequal⟩ :=
    literals_read_alike .standard _ hm (.inl hidle) (Option.isNone_iff_eq_none.mp hevaluator) hf ho
      parse_largestAndText (by decide) hdoubles
  exact ⟨p, w₁, q, w₂, hscript, hdatum, ⟨a, os, hp, hcell⟩, hequal⟩

end Transcript

end Crossing
