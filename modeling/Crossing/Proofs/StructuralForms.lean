import Crossing.Proofs.Crossings
import Crossing.Proofs.Renderings

/-!
# Structural forms of data

The host makes an object of a datum, and gives its structural form again later. The
form differs from the datum, as objects of the host have no falsehood of their own, no
objects with fields and no integers beyond fixnums.

- `Json.structural`: what the structural form of a datum is;
- `Heap.toJsonWithin_of_meets`: a search that meets no symbol of the name of truth
  does not depend on which one is truth;
- `Interpreter.HasForm`: an object has a structural form as long as what was made for it
  is left alone;
- `Host.builds_ofDatum`: the object of a datum has the structural form of the datum;
- `structural_form_of_datum`: and so script code gets it.
-/

namespace Crossing

open Proc

variable {α γ : Type} {w w₁ : World} {lo : Nat} {o : Obj} {j : Json}

/-! ### The form of a datum -/

namespace Json

/-- The datum of a double; there is none for infinities and the like. -/
def ofDouble (x : Float) : Json := (ofFloat? x).getD .null

mutual

/-- The structural form of what the host makes of a datum: what is false or empty is
`nil`, an integer that is no fixnum becomes a double, and the fields of an object become
keywords and values in turn. -/
def structural : Json → Json
  | .bool b => if b then .bool true else .null
  | .int i => if Fixnum.ofInt? i = none then ofDouble (Float.ofInt i) else .int i
  | .list items => .list (structuralIn items)
  | .object fields => if fields.isEmpty then .null else .list (structuralOf fields)
  | j => j

/-- The items of a list in structural form. -/
def structuralIn : List Json → List Json
  | [] => []
  | j :: js => structural j :: structuralIn js

/-- The fields of an object in structural form, each a pair of its name and value. -/
def structuralOf : List (String × Json) → List Json
  | [] => []
  | (name, j) :: fields => .text (":" ++ name) :: structural j :: structuralOf fields

end

/-- A double that reads back is finite. -/
theorem isFinite_of_readsBack {x : Float} (hx : readsBack x = true) : x.isFinite = true := by
  obtain ⟨finite, -⟩ := parse_jsonText hx
  exact finite

/-- A finite double is data. -/
theorem ofDouble_eq {x : Float} (hx : x.isFinite = true) : ofDouble x = .float x hx := by
  rw [ofDouble, ofFloat?, dif_pos hx]
  rfl

/-- A datum has no more than another one that could keep it from being read back. -/
structure Within (k j : Json) : Prop where
  datum : k.isDatum = true
  doubles : ∀ x ∈ k.doubles, x ∈ j.doubles
  nesting : k.nesting ≤ j.nesting

mutual

/-- A structural form has no double that was not there, and is no deeper by more than what
pairs add. -/
theorem structural_within : ∀ j : Json, j.structural.Within j
  | .null | .float _ _ | .text _ => ⟨rfl, fun _ h => h, Nat.le_refl _⟩
  | .bool b => by
    cases b <;> exact ⟨rfl, fun _ h => h, Nat.le_refl _⟩
  | .int i => by
    rw [structural]
    split
    · rename_i hi
      rw [ofDouble, ofFloat?]
      split
      · refine ⟨rfl, fun x hx => ?_, Nat.le_refl _⟩
        rw [Json.doubles, if_pos hi]
        exact hx
      · exact ⟨rfl, nofun, Nat.le_refl _⟩
    · rename_i hi
      refine ⟨?_, fun _ h => h, Nat.le_refl _⟩
      rw [Fixnum.ofInt?_eq_none_iff] at hi
      exact decide_eq_true (by omega)
  | .list items => by
    obtain ⟨hdatum, hdoubles, hnesting⟩ := structuralIn_within items
    exact ⟨hdatum, hdoubles, Nat.succ_le_succ hnesting⟩
  | .object fields => by
    rw [structural]
    split
    · exact ⟨rfl, nofun, Nat.zero_le _⟩
    · obtain ⟨hdatum, hdoubles, hnesting⟩ := structuralOf_within fields
      exact ⟨hdatum, hdoubles, Nat.succ_le_succ hnesting⟩

/-- The structural forms of items stay within the items. -/
theorem structuralIn_within : ∀ items : List Json, isDatumIn (structuralIn items) = true ∧
    (∀ x ∈ doublesIn (structuralIn items), x ∈ doublesIn items) ∧
      nestingIn (structuralIn items) ≤ nestingIn items
  | [] => ⟨rfl, fun _ h => h, Nat.le_refl _⟩
  | j :: js => by
    obtain ⟨hj, hjd, hjn⟩ := structural_within j
    obtain ⟨hjs, hjsd, hjsn⟩ := structuralIn_within js
    refine ⟨(Bool.and_eq_true _ _).mpr ⟨hj, hjs⟩, fun x hx => ?_, by
      simp only [structuralIn, nestingIn]
      omega⟩
    rcases List.mem_append.mp hx with hx | hx
    · exact List.mem_append_left _ (hjd x hx)
    · exact List.mem_append_right _ (hjsd x hx)

/-- The structural forms of fields stay within the fields. -/
theorem structuralOf_within : ∀ fields : List (String × Json),
    isDatumIn (structuralOf fields) = true ∧
    (∀ x ∈ doublesIn (structuralOf fields), x ∈ doublesOf fields) ∧
      nestingIn (structuralOf fields) ≤ nestingOf fields
  | [] => ⟨rfl, fun _ h => h, Nat.le_refl _⟩
  | (name, j) :: fields => by
    obtain ⟨hj, hjd, hjn⟩ := structural_within j
    obtain ⟨hjs, hjsd, hjsn⟩ := structuralOf_within fields
    refine ⟨(Bool.and_eq_true _ _).mpr ⟨rfl, (Bool.and_eq_true _ _).mpr ⟨hj, hjs⟩⟩,
      fun x hx => ?_, by
        simp only [structuralOf, nestingIn, nestingOf, nesting]
        omega⟩
    rcases List.mem_append.mp hx with hx | hx
    · exact absurd hx List.not_mem_nil
    rcases List.mem_append.mp hx with hx | hx
    · exact List.mem_append_left _ (hjd x hx)
    · exact List.mem_append_right _ (hjsd x hx)

end

end Json

/-! ### Searches that do not meet truth -/

namespace Heap

variable {h : Heap} {meets : Obj → Bool} {f g : Obj → Option Json} {truth : Obj}

/-- A search that goes through items meets none of them before it ends. -/
theorem meetsIn_cons {items : List Obj}
    (hm : meetsIn meets (fun o => (g o).isSome) (o :: items) = false) :
    meets o = false ∧ (g o = none ∨ meetsIn meets (fun o => (g o).isSome) items = false) := by
  obtain ⟨ho, hrest⟩ := Bool.or_eq_false_iff.mp hm
  refine ⟨ho, ?_⟩
  rcases Bool.and_eq_false_iff.mp hrest with hnone | hrest
  · exact .inl (by simpa using hnone)
  · exact .inr hrest

theorem mapM_of_meetsIn (hfg : ∀ o, meets o = false → f o = g o) {items : List Obj}
    (hm : meetsIn meets (fun o => (g o).isSome) items = false) : items.mapM f = items.mapM g := by
  induction items with
  | nil => rfl
  | cons o items ih =>
    obtain ⟨ho, hrest⟩ := meetsIn_cons hm
    rw [List.mapM_cons, List.mapM_cons, hfg o ho]
    rcases hrest with hnone | hrest
    · rw [hnone]
      rfl
    · rw [ih hrest]

theorem foldlM_of_meetsIn (hfg : ∀ o, meets o = false → f o = g o) {key : Obj → Option String}
    {entries : List (Obj × Obj)} {fields : Fields Json}
    (hm : meetsIn meets (fun o => (g o).isSome)
      ((entries.takeWhile fun e => (key e.1).isSome).map Prod.snd) = false) :
    (entries.foldlM (fun (fields : Fields Json) (e : Obj × Obj) => do
      let name ← key e.1
      let j ← f e.2
      pure (Fields.put name j fields)) fields : Option (Fields Json)) =
    entries.foldlM (fun (fields : Fields Json) (e : Obj × Obj) => do
      let name ← key e.1
      let j ← g e.2
      pure (Fields.put name j fields)) fields := by
  -- the induction is on the entries; one without a text for its key ends the fold
  induction entries generalizing fields with
  | nil => rfl
  | cons e entries ih =>
    rw [List.foldlM_cons, List.foldlM_cons]
    cases hkey : key e.1 with
    | none => rfl
    | some name =>
      rw [List.takeWhile_cons_of_pos (by rw [hkey]; rfl)] at hm
      obtain ⟨ho, hrest⟩ := meetsIn_cons hm
      rw [hfg e.2 ho]
      rcases hrest with hnone | hrest
      · rw [hnone]
        rfl
      · cases g e.2 with
        | none => rfl
        | some j => exact ih hrest

/-- The structural form does not depend on which symbol is truth if the search for it
meets no symbol of this name. -/
theorem toJsonWithin_of_meets {n : Nat} (hm : h.meetsTruthWithin n o = false) :
    h.toJsonWithin truth n o = h.toJsonWithin .nil n o := by
  -- the induction is on the levels; a mark is met only by a pair or a vector above it
  induction n generalizing o with
  | zero => rfl
  | succ n ih =>
    have hitems : ∀ o, h.meetsTruthWithin n o = false →
        h.toJsonWithin truth n o = h.toJsonWithin .nil n o := fun o => ih
    rw [meetsTruthWithin] at hm
    rw [toJsonWithin, toJsonWithin]
    split at hm
    · rename_i name value function hshape
      have hname : name ≠ truthName := by simpa using hm
      simp only [hshape, hname, false_and, if_false]
    · rename_i head tail hshape
      simp only [hshape]
      split at hm
      · rename_i items hlist
        simp only [hlist, Option.bind_some, mapM_of_meetsIn hitems hm]
      · rename_i hlist
        simp only [hlist, Option.bind_none]
    · rename_i items hshape
      simp only [hshape, mapM_of_meetsIn hitems hm]
    · rename_i entries hshape
      simp only [hshape]
      exact congrArg _ (foldlM_of_meetsIn hitems hm)
    · rename_i hsymbol hcons hvector htable
      cases hshape : h.shape o with
      | cell c =>
        cases c with
        | symbol name value function => exact absurd hshape (hsymbol _ _ _)
        | cons head tail => exact absurd hshape (hcons _ _)
        | vector items => exact absurd hshape (hvector _)
        | table entries => exact absurd hshape (htable _)
        | _ => rfl
      | _ => rfl

end Heap

/-- The structural form that the host gives is the one for the symbol that truth now
is. -/
theorem Host.gives_structuralForm (w : World) (o : Obj) : ∃ w₁,
    w.BuildsTo w₁ ∧ (structuralForm o).Gives 0 w
      (.ok (w.host.heap.toJson? (w.host.intern truthName).1 o)) w₁ := by
  by_cases hm : w.host.heap.meetsTruth o = true
  · refine ⟨_, w.buildsTo_intern truthName, gives_query_bind ?_⟩
    simp only [Query.ask, hm, if_true]
    exact gives_change_bind (gives_pure _)
  · refine ⟨w, .refl w, gives_query_bind ?_⟩
    simp only [Query.ask, hm, Bool.false_eq_true, if_false]
    have hform : w.host.heap.toJson? (w.host.intern truthName).1 o =
        w.host.heap.toJson? .nil o := Heap.toJsonWithin_of_meets (Bool.eq_false_iff.mpr hm)
    rw [hform]
    exact gives_pure _

/-! ### Objects with structural forms -/

/-- An integer that fits is that of the fixnum. -/
theorem Fixnum.val_of_ofInt? {i : Int} {x : Fixnum} (h : ofInt? i = some x) : i = x.val := by
  unfold ofInt? at h
  split at h
  · cases h
    rfl
  · cases h

/-- The name of a keyword starts with a colon. -/
theorem keyword_ne (name : String) {s : String} (hs : s.toList.head? ≠ some ':') :
    ":" ++ name ≠ s := by
  rintro rfl
  exact hs (by rw [String.toList_append]; rfl)

namespace Interpreter

variable {i j k : Interpreter} {f : Json}

/-- The host has gone on. What was made since `lo` has been left alone, and truth is the
symbol that it was. -/
structure Leaves (lo : Nat) (i k : Interpreter) : Prop where
  heap : i.heap.Develops (i.heap.since lo) k.heap
  truth : ∀ {a}, i.find? truthName = some a → k.find? truthName = some a

theorem Leaves.refl (lo : Nat) (i : Interpreter) : i.Leaves lo i := ⟨.refl _ _, id⟩

theorem Leaves.trans (hij : i.Leaves lo j) (hjk : j.Leaves lo k) : i.Leaves lo k where
  heap := hij.heap.trans (hjk.heap.mono fun a ha => by
    obtain ⟨hlo, hlt⟩ := Heap.mem_since.mp ha
    exact Heap.mem_since.mpr ⟨hlo, Nat.lt_of_lt_of_le hlt hij.heap.size_le⟩)
  truth h := hjk.truth (hij.truth h)

/-- What extends an interpreter leaves its cells. -/
theorem Extends.leaves (h : i.Extends j) (lo : Nat) : i.Leaves lo j :=
  ⟨h.develops _, h.names⟩

/-- An object has a structural form for as long as what was made since `lo` is left
alone. It is found within more levels than there are cells now. -/
def HasForm (i : Interpreter) (lo : Nat) (o : Obj) (f : Json) : Prop :=
  ∀ k n, i.Leaves lo k → i.heap.size ≤ n →
    k.heap.toJsonWithin (k.intern truthName).1 (n + 1) o = some f

/-- A form stays the form while the cells above the bound are left. -/
theorem HasForm.of_leaves (h : i.HasForm lo o f) (hij : i.Leaves lo j) : j.HasForm lo o f :=
  fun k n hjk hn => h k n (hij.trans hjk) (Nat.le_trans hij.heap.size_le hn)

/-- The empty list has the form of null. -/
theorem hasForm_nil : i.HasForm lo .nil .null := fun _ _ _ _ => rfl

/-- An integer has its own form. -/
theorem hasForm_int (x : Fixnum) : i.HasForm lo (.int x) (.ofFixnum x) := fun _ _ _ _ => rfl

/-- A finite double has its own form. -/
theorem hasForm_float {x : Float} (hx : x.isFinite = true) :
    i.HasForm lo (.float x) (.float x hx) := fun _ _ _ _ => dif_pos hx

/-- A text has its own form. -/
theorem hasForm_text {a : Addr} {s : String} (ha : i.heap.get? a = some (.text s)) :
    i.HasForm lo (.ref a) (.text s) := by
  intro k n hk _
  simp only [Heap.toJsonWithin, Heap.shape_ref (hk.heap.text ha)]

/-- The symbol that truth is. -/
theorem hasForm_truth {a : Addr} (hi : i.Interned) (ha : i.find? truthName = some a) :
    i.HasForm lo (.ref a) (.bool true) := by
  intro k n hk _
  obtain ⟨hnil, -⟩ | ⟨_, value, function, heq, hsymbol⟩ := hi _ (mem_symbols_of_find? ha)
  · exact absurd hnil (show truthName ≠ "nil" by decide)
  · cases heq
    obtain ⟨value, function, hsymbol⟩ := hk.heap.symbol hsymbol
    simp [Heap.toJsonWithin, Heap.shape_ref hsymbol,
      intern_of_find? (by decide) (hk.truth ha)]

/-- Any other symbol. -/
theorem hasForm_name {a : Addr} {name : String} (hi : i.Interned) (ha : i.find? name = some a)
    (hnil : name ≠ "nil") (htruth : name ≠ truthName) : i.HasForm lo (.ref a) (.text name) := by
  intro k n hk _
  obtain ⟨h, -⟩ | ⟨_, value, function, heq, hsymbol⟩ := hi _ (mem_symbols_of_find? ha)
  · exact absurd h hnil
  · cases heq
    obtain ⟨value, function, hsymbol⟩ := hk.heap.symbol hsymbol
    simp only [Heap.toJsonWithin, Heap.shape_ref hsymbol, htruth, false_and, if_false]

/-- The forms of items, at any depth that suffices for the heap. -/
theorem mapM_of_hasForm {os : List Obj} {fs : List Json} {n : Nat}
    (h : List.Forall₂ (i.HasForm lo) os fs) (hk : i.Leaves lo k) (hn : i.heap.size ≤ n) :
    os.mapM (k.heap.toJsonWithin (k.intern truthName).1 (n + 1)) = some fs := by
  induction h with
  | nil => rfl
  | cons ho _ ih =>
    rw [List.mapM_cons, ho k n hk hn, ih]
    rfl

/-- A vector whose items were made before it. -/
theorem hasForm_vector {a : Addr} {os : List Obj} {fs : List Json}
    (hos : List.Forall₂ (i.HasForm lo) os fs) (hij : i.Leaves lo j) (hlo : lo ≤ a)
    (hi : i.heap.size ≤ a) (ha : j.heap.get? a = some (.vector os)) :
    j.HasForm lo (.ref a) (.list fs) := by
  intro k n hjk hn
  have hlt := Heap.lt_size_of_get? ha
  have hvector := hjk.heap.vector (Heap.mem_since.mpr ⟨hlo, hlt⟩) ha
  -- a vector takes the level that its own cell adds
  have hsize : i.heap.size < n := Nat.lt_of_le_of_lt hi (Nat.lt_of_lt_of_le hlt hn)
  obtain ⟨n, rfl⟩ : ∃ m, n = m + 1 := ⟨n - 1, by omega⟩
  rw [Heap.toJsonWithin]
  simp only [Heap.shape_ref hvector,
    mapM_of_hasForm hos (hij.trans hjk) (Nat.le_of_lt_succ hsize)]
  rfl

/-- A list whose items were made before it. -/
theorem hasForm_list {o head : Obj} {os : List Obj} {fs : List Json}
    (hos : List.Forall₂ (i.HasForm lo) (head :: os) fs) (hij : i.Leaves lo j)
    (hlo : lo ≤ i.heap.size) (ho : j.heap.ListFrom i.heap.size o (head :: os)) :
    j.HasForm lo o (.list fs) := by
  intro k n hjk hn
  have hlist := (ho.mono hlo).develops hjk.heap
  have hitems := hlist.list?
  cases ho with
  | cons ha hpair _ =>
    have hi : i.heap.size ≤ _ := Nat.le_trans (Nat.le_add_right _ _) ha
    have hsize : i.heap.size < n :=
      Nat.lt_of_le_of_lt hi (Nat.lt_of_lt_of_le (Heap.lt_size_of_get? hpair) hn)
    obtain ⟨n, rfl⟩ : ∃ m, n = m + 1 := ⟨n - 1, by omega⟩
    cases hlist with
    | cons _ hpair _ =>
      rw [Heap.toJsonWithin]
      simp only [Heap.shape_ref hpair, hitems, Option.bind_some,
        mapM_of_hasForm hos (hij.trans hjk) (Nat.le_of_lt_succ hsize)]
      rfl

end Interpreter

namespace Host

mutual

/-- The host makes an object that has the structural form of the datum. -/
theorem builds_ofDatum : ∀ (j : Json) (w : World), w.host.Interned → lo ≤ w.host.heap.size →
    (∀ x ∈ j.doubles, Json.readsBack x = true) →
    (ofDatum j).Builds w fun o w₁ => w₁.host.HasForm lo o j.structural
  | .null, w, _, _, _ => builds_pure Interpreter.hasForm_nil
  | .bool false, w, _, _, _ => builds_pure Interpreter.hasForm_nil
  | .bool true, w, hi, _, _ => by
    refine (builds_intern (by decide)).mono fun o w₁ hb ho => ?_
    obtain ⟨a, rfl, ha⟩ := ho
    exact Interpreter.hasForm_truth (hb.host.interned hi) ha
  | .int i, w, _, _, hdoubles => by
    refine builds_pure ?_
    rw [Json.structural]
    cases hint : Fixnum.ofInt? i with
    | some x =>
      rw [if_neg (Option.some_ne_none x), Fixnum.val_of_ofInt? hint]
      exact Interpreter.hasForm_int x
    | none =>
      have hfinite : (Float.ofInt i).isFinite = true := by
        refine Json.isFinite_of_readsBack (hdoubles _ ?_)
        rw [Json.doubles, if_pos hint]
        exact List.mem_singleton_self _
      rw [if_pos rfl, Json.ofDouble_eq hfinite]
      exact Interpreter.hasForm_float hfinite
  | .float x hx, w, _, _, _ => builds_pure (Interpreter.hasForm_float hx)
  | .text s, w, _, _, _ => by
    refine (builds_make _).mono fun o w₁ _ ho => ?_
    obtain ⟨rfl, hcell, -⟩ := ho
    exact Interpreter.hasForm_text hcell
  | .list items, w, hi, hlo, hdoubles => by
    refine (builds_ofData items w hi hlo hdoubles).bind fun os w₁ hb hos =>
      (builds_make _).mono fun o w₂ hb₂ ho => ?_
    obtain ⟨rfl, hcell, -⟩ := ho
    exact Interpreter.hasForm_vector hos (hb₂.host.leaves lo) (Nat.le_trans hlo hb.size_le)
      (Nat.le_refl _) hcell
  | .object fields, w, hi, hlo, hdoubles => by
    refine (builds_ofFields fields w hi hlo hdoubles).bind fun os w₁ hb hos =>
      (builds_list os (Nat.le_refl _)).mono fun o w₂ hb₂ ho => ?_
    rw [Json.structural]
    -- an object without fields is the empty list
    cases fields with
    | nil =>
      cases hos
      cases ho.1
      exact Interpreter.hasForm_nil
    | cons p fields =>
      cases hos with
      | cons hhead htail =>
        exact Interpreter.hasForm_list (.cons hhead htail) (hb₂.host.leaves lo)
          (Nat.le_trans hlo hb.size_le) ho.1

/-- Objects made of items have the structural forms of the items. All that is made lies
above the first new address, and is written to no more. -/
theorem builds_ofData : ∀ (items : List Json) (w : World), w.host.Interned →
    lo ≤ w.host.heap.size → (∀ x ∈ Json.doublesIn items, Json.readsBack x = true) →
    (ofData items).Builds w fun os w₁ =>
      List.Forall₂ (w₁.host.HasForm lo) os (Json.structuralIn items)
  | [], w, _, _, _ => builds_pure .nil
  | j :: js, w, hi, hlo, hdoubles => by
    refine (builds_ofDatum j w hi hlo fun x hx =>
      hdoubles x (List.mem_append_left _ hx)).bind fun o w₁ hb ho => ?_
    refine (builds_ofData js w₁ (hb.host.interned hi) (Nat.le_trans hlo hb.size_le) fun x hx =>
      hdoubles x (List.mem_append_right _ hx)).bind fun os w₂ hb₂ hos => ?_
    exact builds_pure (.cons (ho.of_leaves (hb₂.host.leaves lo)) hos)

/-- Objects made of fields have the structural forms of the fields. -/
theorem builds_ofFields : ∀ (fields : List (String × Json)) (w : World), w.host.Interned →
    lo ≤ w.host.heap.size → (∀ x ∈ Json.doublesOf fields, Json.readsBack x = true) →
    (ofFields fields).Builds w fun os w₁ =>
      List.Forall₂ (w₁.host.HasForm lo) os (Json.structuralOf fields)
  | [], w, _, _, _ => builds_pure .nil
  | (name, j) :: fields, w, hi, hlo, hdoubles => by
    refine (builds_intern (keyword_ne name (by decide))).bind fun o w₁ hb ho => ?_
    obtain ⟨a, rfl, ha⟩ := ho
    have hi₁ := hb.host.interned hi
    have hlo₁ := Nat.le_trans hlo hb.size_le
    refine (builds_ofDatum j w₁ hi₁ hlo₁ fun x hx =>
      hdoubles x (List.mem_append_left _ hx)).bind fun p w₂ hb₂ hp => ?_
    refine (builds_ofFields fields w₂ (hb₂.host.interned hi₁) (Nat.le_trans hlo₁ hb₂.size_le)
      fun x hx => hdoubles x (List.mem_append_right _ hx)).bind fun os w₃ hb₃ hos => ?_
    have hname : w₁.host.HasForm lo (.ref a) (.text (":" ++ name)) :=
      Interpreter.hasForm_name hi₁ ha (keyword_ne name (by decide)) (keyword_ne name (by decide))
    exact builds_pure (.cons (hname.of_leaves ((hb₂.host.trans hb₃.host).leaves lo))
      (.cons (hp.of_leaves (hb₃.host.leaves lo)) hos))

end

end Host

/-! ### What script code gets -/

namespace Json

/-- What can be a datum is read back from its own text, if it is not too deep. -/
theorem ofText_render (hdatum : j.isDatum = true) (hdoubles : ∀ x ∈ j.doubles, readsBack x = true)
    (hnest : j.nesting < maxNesting) : ofText j.render = .ok j := by
  rw [ofText, parse_render hdatum hdoubles hnest]

/-- So does the text of a structural form. -/
theorem ofText_render_structural (hdoubles : ∀ x ∈ j.doubles, readsBack x = true)
    (hnest : j.nesting < maxNesting) : ofText j.structural.render = .ok j.structural := by
  obtain ⟨hdatum, hmem, hle⟩ := structural_within j
  exact ofText_render hdatum (fun x hx => hdoubles x (hmem x hx)) (Nat.lt_of_le_of_lt hle hnest)

end Json

namespace Host

/-- The host takes in the datum that a text stands for. -/
theorem gives_readDatum {text : String} (hparse : Json.parse text = .ok j) (w : World) :
    (readDatum text).Gives 0 w (.ok j) w := by
  rw [readDatum, hparse]
  exact gives_pure j

end Host

namespace Border

/-- Data without a text and data that nest too deep do not become objects. -/
theorem exists_gives_materialize_error (hdatum : j.isDatum = true)
    (hdoubles : ∀ x ∈ j.doubles, Json.readsBack x = true)
    (hj : j.isNulFree = false ∨ Json.maxNesting ≤ j.nesting) (w : World) :
    ∃ x, (materialize j).Gives 0 w (.error x) w := by
  by_cases hnul : j.isNulFree = true
  · have hnest := hj.resolve_left (by simp [hnul])
    obtain ⟨fault, hparse⟩ := Json.exists_parse_error hdatum hdoubles hnest
    refine ⟨.signal (.badData fault), ?_⟩
    rw [materialize, Json.toText, if_pos hnul]
    refine (gives_ofExcept (.ok _)).bind (Gives.bind_error ?_)
    rw [Host.readDatum, hparse]
    exact gives_fail _
  · refine ⟨.containsNul, ?_⟩
    rw [materialize, Json.toText, if_neg hnul]
    exact (gives_ofExcept _).bind_error

/-- All other data become objects that have their structural forms. -/
theorem exists_gives_materialize (hw : w.host.Sound) (hi : w.host.Interned)
    (hdatum : j.isDatum = true) (hdoubles : ∀ x ∈ j.doubles, Json.readsBack x = true)
    (hnul : j.isNulFree = true) (hnest : j.nesting < Json.maxNesting) :
    ∃ h w₁ o, (materialize j).Gives 0 w (.ok h) w₁ ∧ w₁.host.resolve? h.id = some o ∧
      w₁.host.HasForm w.host.heap.size o j.structural := by
  obtain ⟨o, w₁, hmake, hb, hform⟩ := Host.builds_ofDatum j w hi (Nat.le_refl _) hdoubles
  obtain ⟨h, w₂, hadopt, hid, hhost, -⟩ := gives_adopt w₁ o
  refine ⟨h, w₂, o, ?_, ?_, ?_⟩
  · rw [materialize, Json.toText, if_pos hnul]
    exact (gives_ofExcept (.ok _)).bind
      ((Host.gives_readDatum (Json.parse_render hdatum hdoubles hnest) w).bind
        (hmake.bind hadopt))
  · rw [hhost, hid]
    exact Interpreter.resolve?_retain_self (hb.host_sound hw) o
  · rw [hhost]
    exact hform.of_leaves ((w₁.host.extends_retain o).leaves _)

/-- Script code gets the form that the object of a handle has, if its text reads back. -/
theorem exists_gives_structuralForm {h : Handle} {f : Json} (ho : w.host.resolve? h.id = some o)
    (hform : w.host.HasForm lo o f) (hf : Json.ofText f.render = .ok f) :
    ∃ w₁, (structuralForm h).Gives 0 w (.ok f) w₁ := by
  obtain ⟨w₁, -, hgives⟩ := Host.gives_structuralForm w o
  rw [Heap.toJson?, hform w.host _ (.refl lo _) (Nat.le_refl _)] at hgives
  refine ⟨w₁, Gives.bind (a := .ok f) (gives_query_bind ?_) (gives_ofExcept (.ok f))⟩
  simp only [Query.ask, ho]
  refine hgives.bind ?_
  simp only [hf]
  exact gives_pure _

end Border

namespace Transcript

open Moment

/-- In every session, a datum does not become an object just if it has a NUL in it or
nests too deep, and then nothing changes. Else script code gets a handle; wherever a
run comes to from there on, it gets the structural form of the datum for this handle,
as long as the host keeps the object, what was made for it is not changed and truth is
not uninterned. -/
theorem structural_form_of_datum (config : Config) (steps : List Step)
    {m : Moment (List (Except Failure Answer × List Answer))}
    (hm : Reaches (fun _ => True) (start config steps) m) {j : Json} (hdatum : j.isDatum = true)
    (hdoubles : ∀ x ∈ j.doubles, Json.readsBack x = true) :
    (j.isNulFree = false ∨ Json.maxNesting ≤ j.nesting →
      ∃ x, (Border.materialize j).run m.world = (.error (.failure x), m.world)) ∧
    (j.isNulFree = true ∧ j.nesting < Json.maxNesting →
      ∃ h w₁, (Border.materialize j).run m.world = (.ok h, w₁) ∧
        ∀ {γ : Type} (m₀ m₁ : Moment γ), m₀.world = w₁ →
          Reaches (fun m' => m'.Spares (w₁.host.heap.since m.world.host.heap.size) ∧
            ¬m'.Uninterns truthName) m₀ m₁ →
          m₁.world.host.resolve? h.id = w₁.host.resolve? h.id →
          ∃ w₂, (Border.structuralForm h).run m₁.world = (.ok j.structural, w₂)) := by
  have hinv := alike_of_reaches hm
  have hinterned : m.world.host.Interned := by
    obtain ⟨-, -, -, hf⟩ := hinv
    exact hf.grounded.interned
  constructor
  -- the text is read as a datum first, and then made into objects
  · intro hj
    obtain ⟨x, hgives⟩ := Border.exists_gives_materialize_error hdatum hdoubles hj m.world
    exact ⟨x, hgives.run (Nat.zero_le _)⟩
  -- what is made afterwards lies above the first new address, and is not written to
  · rintro ⟨hnul, hnest⟩
    obtain ⟨h, w₁, o, hgives, ho, hform⟩ := Border.exists_gives_materialize hinv.sound.host
      hinterned hdatum hdoubles hnul hnest
    refine ⟨h, w₁, hgives.run (Nat.zero_le _), ?_⟩
    rintro γ m₀ m₁ rfl hr hkept
    have hleaves : m₀.world.host.Leaves m.world.host.heap.size m₁.world.host :=
      ⟨(reaches_mono (fun _ h => h.1) hr).develops, (reaches_mono (fun _ h => h.2) hr).find?⟩
    obtain ⟨w₂, hgives⟩ := Border.exists_gives_structuralForm (hkept.trans ho)
      (hform.of_leaves hleaves) (Json.ofText_render_structural hdoubles hnest)
    exact ⟨w₂, hgives.run (Nat.zero_le _)⟩

/-- An object with truth and an integer beyond fixnums, at the start of a session. -/
def truthAndLargest : Json :=
  .object [("a", .list [.bool true, .int 18446744073709551615]), ("b", .object [])]

/-- Its structural form is a list, with a double in it. A text with a NUL has none. -/
theorem structural_form_of_datum_object :
    (∃ h w₁ w₂, (Border.materialize truthAndLargest).run (.initial .standard) = (.ok h, w₁) ∧
      (Border.structuralForm h).run w₁ = (.ok (.list [.text ":a",
        .list [.bool true, Json.ofDouble (Float.ofInt 18446744073709551615)],
        .text ":b", .null]), w₂)) ∧
    ∃ x, (Border.materialize (.text "\x00")).run (.initial .standard) =
      (.error (.failure x), .initial .standard) := by
  have hm : Reaches (fun _ => True) (start .standard []) (start .standard []) := .refl
  have hdoubles : ∀ x ∈ truthAndLargest.doubles, Json.readsBack x = true := by
    intro x hx
    obtain rfl := List.mem_singleton.mp hx
    decide +kernel
  obtain ⟨-, hgives⟩ := structural_form_of_datum .standard [] hm
    (show truthAndLargest.isDatum = true by decide) hdoubles
  obtain ⟨hfails, -⟩ := structural_form_of_datum .standard [] hm
    (show (Json.text "\x00").isDatum = true by rfl) nofun
  obtain ⟨h, w₁, hrun, hlater⟩ := hgives ⟨by decide, by decide⟩
  obtain ⟨w₂, hstructural⟩ := hlater ⟨Border.structuralForm h, .top, w₁⟩
    ⟨Border.structuralForm h, .top, w₁⟩ rfl .refl rfl
  exact ⟨⟨h, w₁, w₂, hrun, hstructural⟩, hfails (.inl (by decide))⟩

end Transcript

end Crossing
