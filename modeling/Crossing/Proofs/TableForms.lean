import Crossing.Proofs.HostCalls
import Crossing.Proofs.Readings
import Crossing.Proofs.StructuralForms
import Crossing.Proofs.TableKeys

/-!
# Structural forms of tables

The structural form of a table is an object with a field for each text that a key has. A symbol
and a string of its name are two keys, but they have one text, and so have two symbols of one
name. There the form keeps only what was put in last.

- `Fields.find?_ofPairs`, `Fields.length_ofPairs`: fields that are put one after the other;
- `Heap.FormOf`: the form of an object from those of its parts, `Heap.toJson?_iff`: however deep
  the parts nest;
- `Heap.FormOf.isDatum`: forms are data;
- `Heap.KeepsLast`: what the fields of a table are, `Heap.exists_toJson?_table`;
- `Heap.NoneShares`: no symbol among the keys has the text of another key,
  `Heap.KeepsLast.length_eq_iff`: just then there are as many fields as entries;
- `Transcript.table_forms_keep_last`: all of it of every table of every session.
-/

namespace Crossing

variable {h : Heap} {a : Addr} {o truth : Obj} {n : Nat} {j : Json} {name : String}
  {entries : List (Obj × Obj)} {items : List Obj}

/-! ### Fields -/

namespace Fields

variable {α : Type} {pairs : List (String × α)} {fields : Fields α}

/-- The last pair goes into what the others left. -/
theorem ofPairs_concat (pairs : List (String × α)) (p : String × α) :
    ofPairs (pairs ++ [p]) = put p.1 p.2 (ofPairs pairs) := by
  rw [ofPairs, List.foldl_append]
  rfl

/-- What is found is the value of the last pair of the name. -/
theorem find?_ofPairs (name : String) (pairs : List (String × α)) :
    find? name (ofPairs pairs) = (pairs.reverse.find? fun p => p.1 == name).map Prod.snd := by
  induction pairs using List.reverseRecOn with
  | nil => rfl
  | append_singleton pairs p ih =>
    rw [ofPairs_concat, List.reverse_concat, List.find?_cons]
    by_cases hname : p.1 = name
    · subst hname
      rw [find?_put_self, beq_self_eq_true]
      rfl
    · rw [find?_put_other (Ne.symm hname), ih, beq_eq_false_iff_ne.mpr hname]

/-- A name is found if it is among those of the fields. -/
theorem isSome_find?_iff : (find? name fields).isSome = true ↔ name ∈ fields.map Prod.fst := by
  induction fields with
  | nil => simp [find?]
  | cons p fields ih =>
    obtain ⟨k, v⟩ := p
    rw [find?, List.map_cons, List.mem_cons]
    split
    · rename_i hname
      simp [hname]
    · rename_i hname
      simp [hname, ih]

/-- The names of the fields are those of the pairs. -/
theorem mem_names_ofPairs_iff :
    name ∈ (ofPairs pairs).map Prod.fst ↔ name ∈ pairs.map Prod.fst := by
  rw [← isSome_find?_iff, find?_ofPairs, Option.isSome_map, List.find?_isSome]
  simp

/-- There are as many fields as pairs have different names. -/
theorem length_ofPairs (hnodup : ((ofPairs pairs).map Prod.fst).Nodup) :
    (ofPairs pairs).length = (pairs.map Prod.fst).toFinset.card := by
  have hnames : ((ofPairs pairs).map Prod.fst).toFinset = (pairs.map Prod.fst).toFinset := by
    ext name
    rw [List.mem_toFinset, List.mem_toFinset, mem_names_ofPairs_iff]
  rw [← List.length_map, ← List.toFinset_card_of_nodup hnodup, hnames]

end Fields

/-! ### The form of an object from those of its parts -/

namespace Heap

variable {part part' : Obj → Json → Prop}

/-- A field has the text of the key of an entry, and what is in it for the value is as `part`
says. -/
def IsFieldOf (h : Heap) (part : Obj → Json → Prop) (e : Obj × Obj) (p : String × Json) : Prop :=
  h.keyText? e.1 = some p.1 ∧ part e.2 p.2

/-- The structural form of an object, if those of its parts are as `part` says. -/
inductive FormOf (h : Heap) (truth : Obj) (part : Obj → Json → Prop) (o : Obj) : Json → Prop where
  | nil (hshape : h.shape o = .nil) : FormOf h truth part o .null
  | int {i : Fixnum} (hshape : h.shape o = .int i) : FormOf h truth part o (.ofFixnum i)
  | float {x : Float} (hshape : h.shape o = .float x) {j : Json} (hj : Json.ofFloat? x = some j) :
    FormOf h truth part o j
  | text {s : String} (hshape : h.shape o = .cell (.text s)) : FormOf h truth part o (.text s)
  | symbol {name : String} {value function : Option Obj}
    (hshape : h.shape o = .cell (.symbol name value function)) :
    FormOf h truth part o (if name = truthName ∧ o.eq truth then .bool true else .text name)
  | list {head tail : Obj} {items : List Obj} {js : List Json}
    (hshape : h.shape o = .cell (.cons head tail)) (hlist : h.list? o = some items)
    (hitems : List.Forall₂ part items js) : FormOf h truth part o (.list js)
  | vector {items : List Obj} {js : List Json} (hshape : h.shape o = .cell (.vector items))
    (hitems : List.Forall₂ part items js) : FormOf h truth part o (.list js)
  | table {entries : List (Obj × Obj)} {pairs : List (String × Json)}
    (hshape : h.shape o = .cell (.table entries))
    (hentries : List.Forall₂ (h.IsFieldOf part) entries pairs) :
    FormOf h truth part o (.object (Fields.ofPairs pairs))

theorem FormOf.imp (hpart : ∀ o j, part o j → part' o j) (hj : h.FormOf truth part o j) :
    h.FormOf truth part' o j := by
  cases hj with
  | nil hshape => exact .nil hshape
  | int hshape => exact .int hshape
  | float hshape hj => exact .float hshape hj
  | text hshape => exact .text hshape
  | symbol hshape => exact .symbol hshape
  | list hshape hlist hitems => exact .list hshape hlist (hitems.imp fun _ _ => hpart _ _)
  | vector hshape hitems => exact .vector hshape (hitems.imp fun _ _ => hpart _ _)
  | table hshape hentries =>
    exact .table hshape (hentries.imp fun _ _ hp => ⟨hp.1, hpart _ _ hp.2⟩)

/-- A map that succeeds does so item by item. -/
theorem mapM_eq_some_iff {f : Obj → Option Json} {js : List Json} :
    items.mapM f = some js ↔ List.Forall₂ (fun o j => f o = some j) items js := by
  induction items generalizing js with
  | nil =>
    rw [List.mapM_nil, List.forall₂_nil_left_iff, eq_comm]
    exact Option.some_inj
  | cons o items ih =>
    rw [List.mapM_cons, List.forall₂_cons_left_iff]
    simp only [Option.bind_eq_bind, Option.bind_eq_some_iff, ih, Option.pure_def, Option.some_inj]
    exact ⟨fun ⟨j, hj, js, hjs, heq⟩ => ⟨j, js, hj, hjs, heq.symm⟩,
      fun ⟨j, js, hj, hjs, heq⟩ => ⟨j, hj, js, hjs, heq.symm⟩⟩

/-- The fields of a table are those of the texts of its keys and the forms of its values, put from
the first to the last. -/
theorem foldlM_eq_some_iff {f : Obj → Option Json} {fields fields' : Fields Json} :
    (entries.foldlM (fun (fields : Fields Json) (e : Obj × Obj) => do
      let name ← h.keyText? e.1
      let j ← f e.2
      pure (Fields.put name j fields)) fields : Option (Fields Json)) = some fields' ↔
    ∃ pairs, List.Forall₂ (h.IsFieldOf fun o j => f o = some j) entries pairs ∧
      fields' = pairs.foldl (fun fields p => Fields.put p.1 p.2 fields) fields := by
  induction entries generalizing fields with
  | nil =>
    simp only [List.foldlM_nil, List.forall₂_nil_left_iff, exists_eq_left, List.foldl_nil]
    rw [eq_comm]
    exact Option.some_inj
  | cons e entries ih =>
    rw [List.foldlM_cons]
    simp only [Option.bind_eq_bind, Option.bind_eq_some_iff, Option.pure_def, Option.some_inj,
      List.forall₂_cons_left_iff]
    constructor
    · rintro ⟨_, ⟨name, hname, j, hj, rfl⟩, hrest⟩
      obtain ⟨pairs, hpairs, rfl⟩ := ih.mp hrest
      exact ⟨(name, j) :: pairs, ⟨(name, j), pairs, ⟨hname, hj⟩, hpairs, rfl⟩, rfl⟩
    · rintro ⟨_, ⟨⟨name, j⟩, pairs, ⟨hname, hj⟩, hpairs, rfl⟩, rfl⟩
      exact ⟨_, ⟨name, hname, j, hj, rfl⟩, ih.mpr ⟨pairs, hpairs, rfl⟩⟩

/-- One level of a structural form. -/
theorem toJsonWithin_succ_iff : h.toJsonWithin truth (n + 1) o = some j ↔
    h.FormOf truth (fun o j => h.toJsonWithin truth n o = some j) o j := by
  rw [toJsonWithin]
  constructor
  · intro hj
    split at hj
    · rename_i hshape
      cases hj
      exact .nil hshape
    · rename_i hshape
      cases hj
      exact .int hshape
    · rename_i hshape
      exact .float hshape hj
    · rename_i hshape
      cases hj
      exact .text hshape
    · rename_i hshape
      rw [← apply_ite some] at hj
      cases hj
      exact .symbol hshape
    · rename_i hshape
      obtain ⟨items, hlist, hmap⟩ := Option.bind_eq_some_iff.mp hj
      obtain ⟨js, hjs, rfl⟩ := Option.map_eq_some_iff.mp hmap
      exact .list hshape hlist (mapM_eq_some_iff.mp hjs)
    · rename_i hshape
      obtain ⟨js, hjs, rfl⟩ := Option.map_eq_some_iff.mp hj
      exact .vector hshape (mapM_eq_some_iff.mp hjs)
    · rename_i hshape
      obtain ⟨fields, hfields, rfl⟩ := Option.map_eq_some_iff.mp hj
      obtain ⟨pairs, hpairs, rfl⟩ := foldlM_eq_some_iff.mp hfields
      exact .table hshape hpairs
    all_goals cases hj
  · intro hj
    cases hj with
    | nil hshape | int hshape | text hshape => rw [hshape]
    | float hshape hj =>
      rw [hshape]
      exact hj
    | symbol hshape => simp only [hshape, ← apply_ite some]
    | list hshape hlist hitems =>
      simp only [hshape, hlist, Option.bind_some, mapM_eq_some_iff.mpr hitems, Option.map_some]
    | vector hshape hitems => simp only [hshape, mapM_eq_some_iff.mpr hitems, Option.map_some]
    | table hshape hentries =>
      simp only [hshape]
      exact Option.map_eq_some_iff.mpr ⟨_, foldlM_eq_some_iff.mpr ⟨_, hentries, rfl⟩, rfl⟩

/-! ### How many levels a form takes -/

/-- A form that is found within some levels is found within one more. -/
theorem toJsonWithin_succ (hj : h.toJsonWithin truth n o = some j) :
    h.toJsonWithin truth (n + 1) o = some j := by
  induction n generalizing o j with
  | zero => cases hj
  | succ n ih =>
    rw [toJsonWithin_succ_iff] at hj ⊢
    exact hj.imp fun _ _ => ih

theorem toJsonWithin_mono {m : Nat} (hj : h.toJsonWithin truth m o = some j) (hmn : m ≤ n) :
    h.toJsonWithin truth n o = some j := by
  induction hmn with
  | refl => exact hj
  | step _ ih => exact toJsonWithin_succ ih

/-- What has to have a structural form for an object to have one. -/
def formParts (h : Heap) (o : Obj) : List Obj :=
  match h.shape o with
  | .cell (.cons _ _) => (h.list? o).getD []
  | .cell (.vector items) => items
  | .cell (.table entries) => entries.map Prod.snd
  | _ => []

/-- An object has a structural form if its parts have. -/
def MayHaveForm (h : Heap) (truth : Obj) (o : Obj) : Prop :=
  ∃ j, h.FormOf truth (fun _ _ => True) o j

/-- What is related to something item by item is related to some list. -/
theorem exists_forall₂ {β γ : Type} {R : β → γ → Prop} {l : List β} (hl : ∀ x ∈ l, ∃ y, R x y) :
    ∃ ys, List.Forall₂ R l ys := by
  induction l with
  | nil => exact ⟨[], .nil⟩
  | cons x l ih =>
    obtain ⟨⟨y, hy⟩, hrest⟩ := List.forall_mem_cons.mp hl
    obtain ⟨ys, hys⟩ := ih hrest
    exact ⟨y :: ys, .cons hy hys⟩

/-- An object has a form if it may have one and its parts have theirs. The cases are those
of its shape. -/
theorem exists_formOf_iff : (∃ j, h.FormOf truth part o j) ↔
    h.MayHaveForm truth o ∧ ∀ p ∈ h.formParts o, ∃ j, part p j := by
  constructor
  -- a form says what the parts have for theirs
  · rintro ⟨j, hj⟩
    refine ⟨⟨j, hj.imp fun _ _ _ => trivial⟩, fun p hp => ?_⟩
    cases hj with
    | list hshape hlist hitems =>
      rw [formParts, hshape] at hp
      simp only [hlist, Option.getD_some] at hp
      obtain ⟨j, -, hj⟩ := exists_mem_of_forall₂ hitems hp
      exact ⟨j, hj⟩
    | vector hshape hitems =>
      rw [formParts, hshape] at hp
      obtain ⟨j, -, hj⟩ := exists_mem_of_forall₂ hitems hp
      exact ⟨j, hj⟩
    | table hshape hentries =>
      rw [formParts, hshape] at hp
      obtain ⟨e, he, rfl⟩ := List.mem_map.mp hp
      obtain ⟨p, -, -, hp⟩ := exists_mem_of_forall₂ hentries he
      exact ⟨_, hp⟩
    | nil hshape | int hshape | float hshape _ | text hshape | symbol hshape =>
      rw [formParts, hshape] at hp
      cases hp
  -- the parts that have forms are put together
  · rintro ⟨⟨j, hj⟩, hparts⟩
    cases hj with
    | nil hshape => exact ⟨_, .nil hshape⟩
    | int hshape => exact ⟨_, .int hshape⟩
    | float hshape hj => exact ⟨_, .float hshape hj⟩
    | text hshape => exact ⟨_, .text hshape⟩
    | symbol hshape => exact ⟨_, .symbol hshape⟩
    | @list head tail items js hshape hlist _ =>
      rw [show h.formParts o = items by rw [formParts, hshape]; simp only [hlist, Option.getD_some]]
        at hparts
      obtain ⟨js, hjs⟩ := exists_forall₂ hparts
      exact ⟨_, .list hshape hlist hjs⟩
    | vector hshape _ =>
      rw [formParts, hshape] at hparts
      obtain ⟨js, hjs⟩ := exists_forall₂ hparts
      exact ⟨_, .vector hshape hjs⟩
    | table hshape hentries =>
      rw [formParts, hshape] at hparts
      obtain ⟨pairs, hpairs⟩ := exists_forall₂ (R := h.IsFieldOf part) fun e he => by
        obtain ⟨p, -, hp, -⟩ := exists_mem_of_forall₂ hentries he
        obtain ⟨j, hj⟩ := hparts e.2 (List.mem_map_of_mem he)
        exact ⟨(p.1, j), hp, hj⟩
      exact ⟨_, .table hshape hpairs⟩

/-- An object has a form if each level below it may have one. -/
theorem exists_toJsonWithin_iff : (∃ j, h.toJsonWithin truth n o = some j) ↔
    Levels (h.MayHaveForm truth) h.formParts n o := by
  induction n generalizing o with
  | zero => exact ⟨nofun, False.elim⟩
  | succ n ih =>
    simp only [toJsonWithin_succ_iff, exists_formOf_iff, Levels, ih]

/-- What has parts is a reference in use. -/
theorem exists_ref_of_mem_formParts {p : Obj} (hp : p ∈ h.formParts o) :
    ∃ a, o = .ref a ∧ a < h.size := by
  unfold formParts at hp
  split at hp
  case h_4 => cases hp
  all_goals
    rename_i hshape
    obtain ⟨a, rfl, ha⟩ := exists_ref_of_shape hshape
    exact ⟨a, rfl, lt_size_of_get? ha⟩

/-- A form that is found down some levels is the structural form. -/
theorem toJson?_of_toJsonWithin (hj : h.toJsonWithin truth n o = some j) :
    h.toJson? truth o = some j := by
  obtain ⟨j', hj'⟩ := exists_toJsonWithin_iff.mpr
    (Levels.of_parts exists_ref_of_mem_formParts (exists_toJsonWithin_iff.mp ⟨j, hj⟩))
  have hsame := (toJsonWithin_mono hj (Nat.le_max_left n (h.size + 1))).symm.trans
    (toJsonWithin_mono hj' (Nat.le_max_right n (h.size + 1)))
  rw [toJson?, hj', Option.some.inj hsame]

/-- The structural form of an object comes from those of its parts. -/
theorem toJson?_iff : h.toJson? truth o = some j ↔
    h.FormOf truth (fun o j => h.toJson? truth o = some j) o j := by
  constructor
  · intro hj
    exact (toJsonWithin_succ_iff.mp hj).imp fun _ _ => toJson?_of_toJsonWithin
  · intro hj
    exact toJson?_of_toJsonWithin (toJsonWithin_succ_iff.mpr hj)

/-! ### Forms are data -/

section Data

open Json

/-- Items that can each be a datum can be together. -/
theorem isDatumIn_of_forall {js : List Json} (hjs : ∀ j ∈ js, j.isDatum = true) :
    isDatumIn js = true := by
  induction js with
  | nil => rfl
  | cons j js ih =>
    obtain ⟨hj, hrest⟩ := List.forall_mem_cons.mp hjs
    rw [isDatumIn, hj, ih hrest]
    rfl

/-- Fields that are put one after the other are in order. -/
theorem properOf_ofPairs (depth : Nat) {pairs : List (String × Json)}
    (hpairs : ∀ p ∈ pairs, Proper depth p.2) : ProperOf depth (Fields.ofPairs pairs) := by
  induction pairs using List.reverseRecOn with
  | nil => exact ⟨.nil, rfl, Nat.zero_le _⟩
  | append_singleton pairs p ih =>
    obtain ⟨hinit, hlast⟩ := List.forall_mem_append.mp hpairs
    rw [Fields.ofPairs_concat]
    exact (ih hinit).put (hlast p (List.mem_singleton_self p)) p.1

/-- A field is no deeper than all fields. -/
theorem nesting_le_nestingOf_of_mem {pairs : List (String × Json)} {p : String × Json}
    (hp : p ∈ pairs) : p.2.nesting ≤ nestingOf pairs := by
  induction pairs with
  | nil => cases hp
  | cons q pairs ih =>
    rw [nestingOf]
    obtain rfl | hp := List.mem_cons.mp hp
    · exact Nat.le_max_left _ _
    · exact Nat.le_trans (ih hp) (Nat.le_max_right _ _)

/-- Fields from pairs that can be data are an object that can be one. -/
theorem isDatum_object_ofPairs {pairs : List (String × Json)}
    (hpairs : ∀ p ∈ pairs, p.2.isDatum = true) : (object (Fields.ofPairs pairs)).isDatum = true := by
  obtain ⟨horder, hdata, -⟩ := properOf_ofPairs (nestingOf pairs + 1) fun p hp =>
    ⟨hpairs p hp, nesting_le_nestingOf_of_mem hp⟩
  rw [isDatum, hdata, Bool.and_true]
  exact decide_eq_true horder

/-- What has a form can be a datum, if that holds of the parts. -/
theorem FormOf.isDatum (hpart : ∀ o j, part o j → j.isDatum = true)
    (hj : h.FormOf truth part o j) : j.isDatum = true := by
  have hitems : ∀ {items : List Obj} {js : List Json}, List.Forall₂ part items js →
      isDatumIn js = true := fun hforms => isDatumIn_of_forall fun j hj => by
    obtain ⟨o, -, ho⟩ := exists_mem_of_forall₂ hforms.flip hj
    exact hpart o j ho
  cases hj with
  | nil _ | text _ => rfl
  | @int i _ => exact decide_eq_true ⟨i.inRange.1, Int.le_trans i.inRange.2 (by decide)⟩
  | float _ hj =>
    unfold ofFloat? at hj
    split at hj <;> cases hj
    rfl
  | symbol _ => split <;> rfl
  | list _ _ hforms => exact hitems hforms
  | vector _ hforms => exact hitems hforms
  | table _ hentries =>
    refine isDatum_object_ofPairs fun p hp => ?_
    obtain ⟨e, -, he⟩ := exists_mem_of_forall₂ hentries.flip hp
    exact hpart e.2 p.2 he.2

/-- The form of an object can be a datum. The induction is on the levels. -/
theorem isDatum_of_toJsonWithin (hj : h.toJsonWithin truth n o = some j) : j.isDatum = true := by
  induction n generalizing o j with
  | zero => cases hj
  | succ n ih => exact (toJsonWithin_succ_iff.mp hj).isDatum fun _ _ => ih

end Data

/-! ### Tables -/

/-- The texts of the keys of entries. -/
def keyTexts (h : Heap) (entries : List (Obj × Obj)) : List String :=
  entries.filterMap fun e => h.keyText? e.1

/-- The text of the first key goes in front. -/
theorem keyTexts_cons {e : Obj × Obj} (he : h.keyText? e.1 = some name) :
    h.keyTexts (e :: entries) = name :: h.keyTexts entries :=
  List.filterMap_cons_some (f := fun e : Obj × Obj => h.keyText? e.1) he

/-- The last entry whose key has a text. -/
def lastOf? (h : Heap) (name : String) (entries : List (Obj × Obj)) : Option (Obj × Obj) :=
  entries.reverse.find? fun e => h.keyText? e.1 == some name

/-- The fields have the forms of the last values for the texts of the keys, and no others. -/
structure KeepsLast (h : Heap) (truth : Obj) (entries : List (Obj × Obj)) (fields : Fields Json) :
    Prop where
  field : ∀ name, Fields.find? name fields = (h.lastOf? name entries).bind fun e => h.toJson? truth e.2
  length : fields.length = (h.keyTexts entries).toFinset.card

/-- The names of the fields are the texts of the keys. -/
theorem keyTexts_of_forall₂ {pairs : List (String × Json)}
    (hentries : List.Forall₂ (h.IsFieldOf part) entries pairs) :
    h.keyTexts entries = pairs.map Prod.fst := by
  induction hentries with
  | nil => rfl
  | cons he _ ih =>
    rw [keyTexts_cons he.1, List.map_cons, ih]

/-- What a name finds among the fields is the form of the value of the first entry with that
key. -/
theorem find?_of_forall₂ {pairs : List (String × Json)}
    (hentries : List.Forall₂ (h.IsFieldOf fun o j => h.toJson? truth o = some j) entries pairs)
    (name : String) : (pairs.find? fun p => p.1 == name).map Prod.snd =
      (entries.find? fun e => h.keyText? e.1 == some name).bind fun e => h.toJson? truth e.2 := by
  induction hentries with
  | nil => rfl
  | @cons e p entries pairs he _ ih =>
    rw [List.find?_cons, List.find?_cons, he.1]
    by_cases hname : p.1 = name
    · subst hname
      simp only [beq_self_eq_true, Option.map_some, Option.bind_some, he.2]
    · rw [beq_eq_false_iff_ne.mpr hname,
        beq_eq_false_iff_ne.mpr fun hsome => hname (Option.some.inj hsome)]
      exact ih

/-- The structural form of a table. -/
theorem exists_toJson?_table (ha : h.get? a = some (.table entries))
    (hkeys : ∀ e ∈ entries, ∃ name, h.keyText? e.1 = some name)
    (hvalues : ∀ e ∈ entries, ∃ j, h.toJson? truth e.2 = some j) :
    ∃ fields, h.toJson? truth (.ref a) = some (.object fields) ∧ h.KeepsLast truth entries fields := by
  obtain ⟨pairs, hpairs⟩ := exists_forall₂
    (R := h.IsFieldOf fun o j => h.toJson? truth o = some j) fun e he => by
      obtain ⟨name, hname⟩ := hkeys e he
      obtain ⟨j, hj⟩ := hvalues e he
      exact ⟨(name, j), hname, hj⟩
  have hform : h.toJson? truth (.ref a) = some (.object (Fields.ofPairs pairs)) :=
    toJson?_iff.mpr (.table (shape_ref ha) hpairs)
  have horder := (Bool.and_eq_true_iff.mp (isDatum_of_toJsonWithin hform)).1
  refine ⟨_, hform, fun name => ?_, ?_⟩
  · rw [Fields.find?_ofPairs, find?_of_forall₂ (List.forall₂_reverse_iff.mpr hpairs)]
    rfl
  · rw [Fields.length_ofPairs ((of_decide_eq_true horder).imp fun hlt => Std.ne_of_lt hlt),
      keyTexts_of_forall₂ hpairs]

/-! ### Tables that lose nothing -/

/-- No symbol among the keys has the text of another key. -/
def NoneShares (h : Heap) (entries : List (Obj × Obj)) : Prop :=
  ∀ e ∈ entries, ∀ e' ∈ entries, ∀ name, h.symbolName? e.1 = some name →
    h.keyText? e'.1 = some name → e' = e

/-- Each key has a text. -/
theorem map_some_keyTexts (hkeys : ∀ e ∈ entries, ∃ name, h.keyText? e.1 = some name) :
    (h.keyTexts entries).map some = entries.map fun e => h.keyText? e.1 := by
  induction entries with
  | nil => rfl
  | cons e entries ih =>
    obtain ⟨⟨name, hname⟩, hrest⟩ := List.forall_mem_cons.mp hkeys
    rw [keyTexts_cons hname, List.map_cons, List.map_cons, hname, ih hrest]

/-- The text of a key is that of a text or the name of a symbol. -/
theorem keyText?_cases (ho : h.keyText? o = some name) :
    h.label o = .text name ∨ h.symbolName? o = some name := by
  unfold keyText? at ho
  split at ho
  · rename_i hshape
    cases ho
    exact .inl (by rw [label, hshape])
  · rename_i hshape
    cases ho
    exact .inr (by rw [symbolName?, hshape])
  · cases ho

/-- The name of a symbol is its text as a key. -/
theorem keyText?_of_symbolName? (ho : h.symbolName? o = some name) :
    h.keyText? o = some name := by
  unfold symbolName? at ho
  split at ho
  · rename_i hshape
    rw [keyText?, hshape]
    exact ho
  · cases ho

/-- Keys that are told apart have different texts unless one of them is a symbol. -/
theorem nodup_keyTexts_iff (htells : (entries.map Prod.fst).Pairwise h.Tells)
    (hkeys : ∀ e ∈ entries, ∃ name, h.keyText? e.1 = some name) :
    (h.keyTexts entries).Nodup ↔ h.NoneShares entries := by
  rw [← List.nodup_map_iff (Option.some_injective String), map_some_keyTexts hkeys]
  constructor
  · intro hnodup e he e' he' name hsymbol htext
    exact List.inj_on_of_nodup_map hnodup he' he
      (htext.trans (keyText?_of_symbolName? hsymbol).symm)
  -- two keys that are told apart have one text only as a text and a symbol
  · intro hnone
    refine List.pairwise_map.mpr ((List.pairwise_map.mp htells).imp_of_mem ?_)
    intro e e' he he' ht hsame
    obtain ⟨name, hname⟩ := hkeys e he
    have hname' : h.keyText? e'.1 = some name := hsame ▸ hname
    have hlabel : h.label e.1 ≠ h.label e'.1 := ht (by rw [hname]; rfl)
    obtain hl | hsymbol := keyText?_cases hname
    · obtain hl' | hsymbol' := keyText?_cases hname'
      · exact hlabel (hl.trans hl'.symm)
      · exact hlabel (by rw [hnone e' he' e he name hsymbol' hname])
    · exact hlabel (by rw [hnone e he e' he' name hsymbol hname'])

variable {fields : Fields Json}

/-- There are as many fields as entries just if no key has the text of another one. -/
theorem KeepsLast.length_eq_iff (hlast : h.KeepsLast truth entries fields)
    (htells : (entries.map Prod.fst).Pairwise h.Tells)
    (hkeys : ∀ e ∈ entries, ∃ name, h.keyText? e.1 = some name) :
    fields.length = entries.length ↔ h.NoneShares entries := by
  have hlength : (h.keyTexts entries).length = entries.length := by
    rw [← List.length_map, map_some_keyTexts hkeys, List.length_map]
  rw [← nodup_keyTexts_iff htells hkeys, hlast.length, ← hlength, List.card_toFinset]
  constructor
  · intro heq
    exact List.dedup_eq_self.mp ((List.dedup_sublist _).eq_of_length heq)
  · intro hnodup
    rw [hnodup.dedup]

/-- The value of an entry is in the field for its key if no other key has the same text. -/
theorem KeepsLast.find?_eq (hlast : h.KeepsLast truth entries fields)
    (hnodup : (h.keyTexts entries).Nodup)
    (hkeys : ∀ e ∈ entries, ∃ name, h.keyText? e.1 = some name) {e : Obj × Obj} (he : e ∈ entries)
    (hname : h.keyText? e.1 = some name) : Fields.find? name fields = h.toJson? truth e.2 := by
  rw [← List.nodup_map_iff (Option.some_injective String), map_some_keyTexts hkeys] at hnodup
  have hfound : (h.lastOf? name entries).isSome = true :=
    List.find?_isSome.mpr ⟨e, List.mem_reverse.mpr he, by rw [hname, beq_self_eq_true]⟩
  obtain ⟨e', he'⟩ := Option.isSome_iff_exists.mp hfound
  have hmem : e' ∈ entries := List.mem_reverse.mp (List.mem_of_find?_eq_some he')
  have htext : h.keyText? e'.1 = some name :=
    eq_of_beq (List.find?_some (p := fun e : Obj × Obj => h.keyText? e.1 == some name) he')
  obtain rfl := List.inj_on_of_nodup_map hnodup hmem he (htext.trans hname.symm)
  rw [hlast.field, he', Option.bind_some]

end Heap

/-! ### Sessions -/

/-- Script code gets what the text of the structural form reads as. -/
theorem Border.exists_gives_structuralForm_of_toJson? {w : World} {g : Handle}
    (ho : w.host.resolve? g.id = some o)
    (hj : w.host.heap.toJson? (w.host.intern truthName).1 o = some j) :
    ∃ w₁, (structuralForm g).Gives 0 w (Json.ofText j.render) w₁ := by
  obtain ⟨w₁, -, hgives⟩ := Host.gives_structuralForm w o
  rw [hj] at hgives
  refine ⟨w₁, Proc.Gives.bind (a := Json.ofText j.render) (Proc.gives_query_bind ?_)
    (Proc.gives_ofExcept (Json.ofText j.render))⟩
  simp only [Query.ask, ho]
  exact hgives.bind (Proc.gives_pure _)

namespace Transcript

variable {config : Config} {steps : List Step}
  {m : Moment (List (Except Failure Answer × List Answer))}

/-- In every session, a table whose keys are strings and symbols and whose values have structural
forms has a structural form: an object that has a field for each text that a key has, with the
form of the last value for a key of this text. So it has as many fields as the host counts entries
just if no symbol among the keys has the text of another key, and then the value of every entry is
there. Script code gets the form, as long as its text reads back. -/
theorem table_forms_keep_last (hr : Moment.Reaches (fun _ => True) (start config steps) m)
    (ha : m.world.host.heap.entries? (.ref a) = some entries)
    (hkeys : ∀ e ∈ entries, ∃ name, m.world.host.heap.keyText? e.1 = some name)
    (hvalues : ∀ e ∈ entries, ∃ j,
      m.world.host.heap.toJson? (m.world.host.intern truthName).1 e.2 = some j) :
    ∃ fields, (∃ w₁, (Host.structuralForm (.ref a)).Gives 0 m.world
        (.ok (some (.object fields))) w₁) ∧
      m.world.host.heap.KeepsLast (m.world.host.intern truthName).1 entries fields ∧
      (Builtin.countEntries.run [.ref a]).Gives 0 m.world (.ok (.int (.ofNat entries.length)))
        m.world ∧
      (fields.length = entries.length ↔ m.world.host.heap.NoneShares entries) ∧
      (m.world.host.heap.NoneShares entries → ∀ e ∈ entries, ∃ name j,
        m.world.host.heap.keyText? e.1 = some name ∧
        m.world.host.heap.toJson? (m.world.host.intern truthName).1 e.2 = some j ∧
        Fields.find? name fields = some j) ∧
      ∀ g : Handle, m.world.host.resolve? g.id = some (.ref a) →
        (∀ x ∈ (Json.object fields).doubles, Json.readsBack x = true) →
        (Json.object fields).nesting < Json.maxNesting →
        ∃ w₁, (Border.structuralForm g).Gives 0 m.world (.ok (.object fields)) w₁ := by
  have htable := Heap.entries?_iff.mp ha
  have htells := tellsKeys_of_reaches hr a entries htable
  obtain ⟨fields, hform, hlast⟩ := Heap.exists_toJson?_table htable hkeys hvalues
  obtain ⟨w₁, -, hgives⟩ := Host.gives_structuralForm m.world (.ref a)
  rw [hform] at hgives
  refine ⟨fields, ⟨w₁, hgives⟩, hlast, Host.gives_countEntries htable,
    hlast.length_eq_iff htells hkeys, fun hnone e he => ?_, fun g hg hdoubles hnest => ?_⟩
  · obtain ⟨name, hname⟩ := hkeys e he
    obtain ⟨j, hj⟩ := hvalues e he
    have hnodup := (Heap.nodup_keyTexts_iff htells hkeys).mpr hnone
    exact ⟨name, j, hname, hj, (hlast.find?_eq hnodup hkeys he hname).trans hj⟩
  · obtain ⟨w₂, hgives₂⟩ := Border.exists_gives_structuralForm_of_toJson? hg hform
    rw [Json.ofText_render (Heap.isDatum_of_toJsonWithin hform) hdoubles hnest] at hgives₂
    exact ⟨w₂, hgives₂⟩

/-- Strings of different texts are told apart in the form too. -/
theorem table_forms_keep_last_made : ∃ fields,
    (∃ w₁, (Host.structuralForm (.ref 157)).Gives 0 (tableMade.after 133).world
      (.ok (some (.object fields))) w₁) ∧ fields.length = 2 := by
  obtain ⟨ha, hkeys, hvalues, hstrings⟩ :
      (tableMade.after 133).world.host.heap.entries? (.ref 157) =
        some [(.ref 158, .ref 1), (.ref 160, .nil)] ∧
      (∀ e ∈ [(Obj.ref 158, Obj.ref 1), (.ref 160, .nil)],
        ((tableMade.after 133).world.host.heap.keyText? e.1).isSome = true) ∧
      (∀ e ∈ [(Obj.ref 158, Obj.ref 1), (.ref 160, .nil)],
        ((tableMade.after 133).world.host.heap.toJson?
          ((tableMade.after 133).world.host.intern truthName).1 e.2).isSome = true) ∧
      (∀ e ∈ [(Obj.ref 158, Obj.ref 1), (.ref 160, .nil)],
        (tableMade.after 133).world.host.heap.symbolName? e.1 = none) := by
    rw [tableMade, start_eq]
    decide +kernel
  have hreaches : Moment.Reaches (fun _ => True) tableMade (tableMade.after 133) :=
    Moment.reaches_after fun _ _ => trivial
  obtain ⟨fields, hform, -, -, hlength, -⟩ := table_forms_keep_last hreaches ha
    (fun e he => Option.isSome_iff_exists.mp (hkeys e he))
    fun e he => Option.isSome_iff_exists.mp (hvalues e he)
  -- the keys of the table are texts, and none of them is a symbol
  refine ⟨fields, hform, hlength.mpr fun e he e' _ name hsymbol _ => ?_⟩
  rw [hstrings e he] at hsymbol
  cases hsymbol

/-- Sources that put something into a table for a string and for the symbol of this name. -/
def sharingSources : List String := [
  "(let ((h (make-hash-table))) (puthash \"a\" 1 h) (puthash 'a 2 h) (hash-table-count h))",
  "(let ((h (make-hash-table))) (puthash \"a\" 1 h) (puthash 'a 2 h) h)"]

/-- The table has two entries, and its form one field. -/
theorem shared_text_loses_entry :
    (ofSources sharingSources).results.map (fun r => r.toOption.bind ObjectReport.json) =
      [some "2", some "\x7b\"a\":2\x7d"] := by
  rw [ofSources_eq]
  decide +kernel

end Transcript

end Crossing
