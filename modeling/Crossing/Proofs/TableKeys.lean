import Crossing.Proofs.Buffers
import Crossing.Proofs.Tables

/-!
# Keys of tables

A table compares its keys when something is put into it, and never again. A pair or a vector
among the keys may become `equal` to another key later, but strings and symbols stay what they
are: a table never has two strings of one text or one symbol twice.

- `Heap.Tells`: two keys are not `equal` and will never be;
- `Heap.TellsKeys`: nor are any two keys of any table;
- `Moment.Goes.table_cases`: a table has been one before, or it is empty;
- `Transcript.tellsKeys_of_reaches`: sessions keep to it.
-/

namespace Crossing

variable {α γ : Type} {h h₁ : Heap} {a b : Addr} {o p key value : Obj}
  {entries : List (Obj × Obj)} {w w₁ : World}

namespace Heap

/-! ### Keys that are told apart -/

/-- The first key, if it is a string or a symbol, and the second one are told apart for good. -/
def Tells (h : Heap) (o p : Obj) : Prop := (h.keyText? o).isSome = true → h.label o ≠ h.label p

/-- The keys of every table are told apart. -/
def TellsKeys (h : Heap) : Prop :=
  ∀ a entries, h.get? a = some (.table entries) → (entries.map Prod.fst).Pairwise h.Tells

/-- Strings and symbols have no parts. -/
theorem equal_of_label (ho : (h.keyText? o).isSome = true) (hlabel : h.label o = h.label p) :
    h.equal o p = true := by
  refine equalWithin_succ_iff.mpr ⟨hlabel, ?_⟩
  -- two objects with one label are both texts, or neither is a pair or a vector
  obtain ⟨s, hshape, hl⟩ | ⟨head, tail, hshape, -⟩ | ⟨items, hshape, -⟩ | ⟨hl, hparts⟩ :=
    h.label_cases o
  · rw [hl] at hlabel
    obtain ⟨t, hshape', hl'⟩ | ⟨_, _, -, hl'⟩ | ⟨_, -, hl'⟩ | ⟨hl', -⟩ := h.label_cases p
    · rw [EqualParts, parts, parts, hshape, hshape']
      exact .nil
    all_goals
      rw [hl'] at hlabel
      cases hlabel
  · rw [keyText?, hshape] at ho
    cases ho
  · rw [keyText?, hshape] at ho
    cases ho
  · rw [hl] at hlabel
    obtain ⟨t, -, hl'⟩ | ⟨_, _, -, hl'⟩ | ⟨_, -, hl'⟩ | ⟨hl', -⟩ := h.label_cases p <;>
      rw [hl'] at hlabel <;> cases hlabel
    rw [EqualParts, hparts]
    exact .nil

/-- Objects that are not equal are told apart. -/
theorem tells_of_equal (he : h.equal o p = false) : h.Tells o p := fun ho hlabel => by
  rw [equal_of_label ho hlabel] at he
  cases he

/-- What a string or a symbol is for `equal`, and its text, do not change. -/
theorem Develops.label_eq (hd : h.Develops [] h₁) (ho : o.Below h.size) :
    h₁.label o = h.label o ∧ h₁.keyText? o = h.keyText? o := by
  cases o with
  | nil | int | float => exact ⟨rfl, rfl⟩
  | ref a =>
    obtain ⟨c, hc⟩ : ∃ c, h.get? a = some c := ⟨_, Array.getElem?_eq_getElem ho⟩
    obtain ⟨c₁, hc₁, hfixed⟩ := hd.cell hc
    rw [decide_eq_false List.not_mem_nil] at hfixed
    simp only [label, keyText?, shape_ref hc, shape_ref hc₁]
    cases c <;> cases c₁ <;> cases hfixed <;> exact ⟨rfl, rfl⟩

/-- Objects that are told apart are so for as long as nothing writes to them. -/
theorem Tells.of_develops (ht : h.Tells o p) (hd : h.Develops [] h₁) (ho : o.Below h.size)
    (hp : p.Below h.size) : h₁.Tells o p := by
  unfold Tells
  rw [(hd.label_eq ho).1, (hd.label_eq ho).2, (hd.label_eq hp).1]
  exact ht

/-- A put adds a key that is not `equal` to any other, or none. -/
theorem keys_insertEntry (h : Heap) (key value : Obj) (entries : List (Obj × Obj)) :
    (h.insertEntry key value entries).map Prod.fst = entries.map Prod.fst ∨
      (∀ e ∈ entries, h.equal e.1 key = false) ∧
        (h.insertEntry key value entries).map Prod.fst = entries.map Prod.fst ++ [key] := by
  obtain ⟨before, e, after, rfl, -, hput⟩ | ⟨hnone, hput⟩ := h.insertEntry_cases key value entries
  · exact .inl (by rw [hput, List.map_append, List.map_append]; rfl)
  · exact .inr ⟨hnone, by rw [hput, List.map_append]; rfl⟩

/-- An entry goes in under an equal key, or its key is told apart from all. -/
theorem tells_insertEntry (ht : (entries.map Prod.fst).Pairwise h.Tells) :
    ((h.insertEntry key value entries).map Prod.fst).Pairwise h.Tells := by
  obtain heq | ⟨hnone, heq⟩ := h.keys_insertEntry key value entries
  · rwa [heq]
  · rw [heq]
    refine List.pairwise_append.mpr ⟨ht, List.pairwise_singleton _ _, fun o ho p hp => ?_⟩
    obtain ⟨e, he, rfl⟩ := List.mem_map.mp ho
    obtain rfl := List.mem_singleton.mp hp
    exact tells_of_equal (hnone e he)

/-! ### Tables in a heap that goes on -/

/-- A table in a heap with a new cell was there, or is new and empty. -/
theorem table_of_allocate {c : Cell} (hc : ∀ entries, c = .table entries → entries = [])
    (ha : (h.allocate c).2.get? a = some (.table entries)) :
    (∃ entries', h.get? a = some (.table entries')) ∨ entries = [] := by
  obtain hold | ⟨-, hnew⟩ := get?_allocate_cases ha
  · exact .inl ⟨entries, hold⟩
  · exact .inr (hc entries hnew.symm)

/-- Unless changing a cell makes a table of it, none comes about. -/
theorem table_of_modify {f : Cell → Cell}
    (hf : ∀ c entries, f c = .table entries → ∃ entries', c = .table entries')
    (hb : (h.modify a f).get? b = some (.table entries)) :
    ∃ entries', h.get? b = some (.table entries') := by
  by_cases hab : b = a
  · subst hab
    rw [get?_modify_self] at hb
    obtain ⟨c, hc, hfc⟩ := Option.map_eq_some_iff.mp hb
    obtain ⟨entries', rfl⟩ := hf c entries hfc
    exact ⟨entries', hc⟩
  · rw [get?_modify_other h f hab] at hb
    exact ⟨entries, hb⟩

theorem table_of_setValue {o : Option Obj}
    (hb : (h.setValue a o).get? b = some (.table entries)) :
    ∃ entries', h.get? b = some (.table entries') :=
  table_of_modify (fun c entries hc => by cases c <;> cases hc; exact ⟨entries, rfl⟩) hb

/-- A table in a heap where variables were bound was there. -/
theorem table_of_bind {bindings : List (Addr × Obj)} {saved : List (Addr × Option Obj)}
    (ha : (h.bind bindings saved).2.get? a = some (.table entries)) :
    ∃ entries', h.get? a = some (.table entries') := by
  induction bindings generalizing h saved with
  | nil => exact ⟨entries, ha⟩
  | cons b bindings ih =>
    obtain ⟨_, hb⟩ := ih ha
    exact table_of_setValue hb

/-- A table in a heap where variables were restored was there. -/
theorem table_of_restore {saved : List (Addr × Option Obj)}
    (ha : (h.restore saved).get? a = some (.table entries)) :
    ∃ entries', h.get? a = some (.table entries') := by
  induction saved generalizing h with
  | nil => exact ⟨entries, ha⟩
  | cons s saved ih =>
    obtain ⟨_, hb⟩ := ih ha
    exact table_of_setValue hb

end Heap

/-! ### Runs -/

/-- A table after a change has been a table before, or it is empty. -/
theorem Change.table_cases {c : Change α}
    (ha : (c.run w).2.host.heap.get? a = some (.table entries)) :
    (∃ entries', w.host.heap.get? a = some (.table entries')) ∨ entries = [] := by
  -- a table is made empty; no other change makes one
  cases c with
  | make f => exact Heap.table_of_allocate (fun entries hc => by cases f <;> cases hc; rfl) ha
  | intern name =>
    simp only [run, World.onHost, Interpreter.intern] at ha
    split at ha
    · exact .inl ⟨entries, ha⟩
    · split at ha
      · exact .inl ⟨entries, ha⟩
      · exact Heap.table_of_allocate (fun _ hc => by cases hc) ha
  | ensureBuffer name =>
    simp only [run, World.onHost, Interpreter.ensureBuffer] at ha
    split at ha
    · exact .inl ⟨entries, ha⟩
    · exact Heap.table_of_allocate (fun _ hc => by cases hc) ha
  | retain o =>
    simp only [run, World.onHost, Interpreter.retain] at ha
    split at ha <;> exact .inl ⟨entries, ha⟩
  | sweep =>
    change w.sweep.2.host.heap.get? a = _ at ha
    rw [World.heap_sweep] at ha
    exact .inl ⟨entries, ha⟩
  | putEntry b key value =>
    exact .inl (Heap.table_of_modify (fun c _ hc => by cases c <;> cases hc; exact ⟨_, rfl⟩) ha)
  | setHead _ _ | setValue _ _ | setFunction _ _ | setItem _ _ _ | killBuffer _ | appendText _ _ =>
    exact .inl (Heap.table_of_modify (fun c es hc => by cases c <;> cases hc; exact ⟨es, rfl⟩) ha)
  | unintern _ | selectBuffer _ | temporaryName | release _ => exact .inl ⟨entries, ha⟩
  | _ =>
    rw [host_run w trivial] at ha
    exact .inl ⟨entries, ha⟩

namespace Moment

variable {m m₁ : Moment γ}

/-- A table after a step has been a table before, or it is empty. -/
theorem Goes.table_cases (h : Goes m m₁)
    (ha : m₁.world.host.heap.get? a = some (.table entries)) :
    (∃ entries', m.world.host.heap.get? a = some (.table entries')) ∨ entries = [] := by
  cases h with
  | sweep _ =>
    change m.world.sweep.2.host.heap.get? a = _ at ha
    rw [World.heap_sweep] at ha
    exact .inl ⟨entries, ha⟩
  | next h =>
    obtain heq | ⟨β, c, next, -, heq⟩ | ⟨s, u, hs⟩ | ⟨u, heq⟩ := world_cases h
    · rw [heq] at ha
      exact .inl ⟨entries, ha⟩
    · rw [heq] at ha
      exact Change.table_cases ha
    · obtain ⟨-, heq | ⟨bindings, heq⟩⟩ := Scope.enter_cases hs
      · rw [heq] at ha
        exact .inl ⟨entries, ha⟩
      · rw [heq] at ha
        exact .inl (Heap.table_of_bind ha)
    · rw [heq] at ha
      cases u with
      | restore saved => exact .inl (Heap.table_of_restore ha)
      | killAndSelect b c =>
        exact .inl (Heap.table_of_modify (fun c es hc => by cases c <;> cases hc; exact ⟨es, rfl⟩) ha)
      | _ => exact .inl ⟨entries, ha⟩

/-- The keys of a table after the step that comes refer to cells of the heap. -/
theorem Below.keysNext (hm : m.Below m.world.host.heap.size)
    (ha : m.world.host.heap.get? a = some (.table entries)) :
    ∀ o ∈ (m.entriesNext a entries).map Prod.fst, o.Below m.world.host.heap.size := by
  have hold : ∀ o ∈ entries.map Prod.fst, o.Below m.world.host.heap.size := fun o ho => by
    obtain ⟨e, he, rfl⟩ := List.mem_map.mp ho
    exact hm.host.heap.cells ha _ (List.mem_flatMap.mpr ⟨e, he, List.mem_cons_self⟩)
  unfold entriesNext
  split
  · rename_i key value hput
    obtain heq | ⟨-, heq⟩ := m.world.host.heap.keys_insertEntry key value entries
    · rwa [heq]
    · rw [heq]
      exact List.forall_mem_append.mpr ⟨hold, List.forall_mem_singleton.mpr (hm.put? hput)⟩
  · exact hold

/-- A step keeps the keys of every table told apart. -/
theorem Goes.tellsKeys (h : Goes m m₁) (hbelow : m.Below m.world.host.heap.size)
    (hm : m.world.host.heap.TellsKeys) : m₁.world.host.heap.TellsKeys := by
  intro a entries ha
  obtain ⟨entries₀, ha₀⟩ | rfl := h.table_cases ha
  · obtain rfl : m.entriesNext a entries₀ = entries :=
      Cell.table.inj (Option.some.inj ((h.table ha₀).symm.trans ha))
    have hkeys := hbelow.keysNext ha₀
    have htells : ((m.entriesNext a entries₀).map Prod.fst).Pairwise m.world.host.heap.Tells := by
      unfold entriesNext
      split
      · exact Heap.tells_insertEntry (hm a entries₀ ha₀)
      · exact hm a entries₀ ha₀
    exact htells.imp_of_mem fun ho hp ht =>
      ht.of_develops (h.develops m.spares_nil) (hkeys _ ho) (hkeys _ hp)
  · exact .nil

end Moment

/-- At the start there are no tables. -/
theorem Interpreter.tellsKeys_initial : initial.heap.TellsKeys := by
  have hnone : ∀ a < initial.heap.size, initial.heap.entries? (.ref a) = none := by
    rw [initial_eq]
    decide +kernel
  intro a entries ha
  have htable := hnone a (Heap.lt_size_of_get? ha)
  rw [Heap.entries?_iff.mpr ha] at htable
  cases htable

/-- In sessions, the keys of every table are told apart. -/
theorem Transcript.tellsKeys_of_reaches {config : Config} {steps : List Step}
    {m : Moment (List (Except Failure Answer × List Answer))}
    (hr : Moment.Reaches (fun _ => True) (start config steps) m) :
    m.world.host.heap.TellsKeys := by
  induction hr with
  | refl => exact Interpreter.tellsKeys_initial
  | tail hr hgo ih => exact hgo.2.tellsKeys (below_of_reaches hr) ih

end Crossing
