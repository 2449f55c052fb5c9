import Crossing.Proofs.Moments

/-!
# Registries over time

A key that a registry has given out stands for its value until it is removed, and
for nothing after that, however often its index is used again.

- `Registry.Sound`: the free indices are empty places, each free once;
- `Registry.Spent`: a key whose value has been removed;
- `Registry.Holds`: a key stands for its value, or is spent;
- `Spent.insert`, `Spent.remove`: a spent key stays spent;
- `Moment.Goes.registers`: what a step of a run does to the two registries;
- `Moment.Reaches.callbacks`, `Moment.Reaches.proxies`: what a run does to them.
-/

namespace Crossing

namespace Registry

variable {α : Type} {r r' : Registry α} {a b : α} {k j : Key} {i : Nat}

/-! ### Sound registries -/

/-- What a registry keeps to. -/
structure Sound (r : Registry α) : Prop where
  length_le : r.slots.length ≤ keyBound
  generation_lt : ∀ {i : Nat} {s : Slot α}, r.slots[i]? = some s → s.generation < keyBound
  free : ∀ i ∈ r.free, ∃ g, r.slots[i]? = some ⟨g, none⟩
  once : r.free.Nodup

theorem sound_empty : (empty : Registry α).Sound where
  length_le := Nat.zero_le _
  generation_lt h := by cases h
  free _ h := absurd h List.not_mem_nil
  once := .nil

/-- A key stands for what is in its slot, if the slot is of its generation. -/
theorem get?_iff : r.get? k = some a ↔ r.slots[k.index]? = some ⟨k.generation, some a⟩ := by
  unfold get?
  constructor
  · intro h
    -- a slot of another generation, or an empty one, answers nothing
    split at h
    · rename_i s hs
      obtain ⟨g, v⟩ := s
      split at h
      · rename_i hg
        obtain rfl : g = k.generation := hg
        obtain rfl : v = some a := h
        exact hs
      · cases h
    · cases h
  · intro h
    rw [h]
    exact if_pos rfl

/-- A value goes to the end, or to the index that has been free for longest. -/
theorem insert_cases (hr : r.Sound) (h : r.insert a = some (k, r')) :
    (r.free = [] ∧ r.slots.length < keyBound ∧ k = ⟨r.slots.length, 0⟩ ∧
      r' = ⟨r.slots ++ [⟨0, some a⟩], [], r.count + 1⟩) ∨
    ∃ free, r.free = k.index :: free ∧ r.slots[k.index]? = some ⟨k.generation, none⟩ ∧
      r' = ⟨r.slots.set k.index ⟨k.generation, some a⟩, free, r.count + 1⟩ := by
  unfold insert at h
  split at h
  · rename_i hfree
    unfold append at h
    split at h
    · rename_i hlt
      cases h
      exact .inl ⟨hfree, hlt, rfl, by rw [hfree]⟩
    · cases h
  · rename_i i free hfree
    obtain ⟨g, hg⟩ := hr.free i (hfree ▸ List.mem_cons_self)
    rw [hg] at h
    cases h
    exact .inr ⟨free, hfree, hg, rfl⟩

/-- Nothing but the place of the new key changes. -/
theorem slots_insert (hr : r.Sound) (h : r.insert a = some (k, r')) (i : Nat) :
    r'.slots[i]? = if i = k.index then some ⟨k.generation, some a⟩ else r.slots[i]? := by
  -- the key is of a new slot, or of one that was free
  obtain ⟨-, -, rfl, rfl⟩ | ⟨free, -, hslot, rfl⟩ := insert_cases hr h
  · rw [List.getElem?_append]
    split
    · rename_i hlt
      rw [if_neg (Nat.ne_of_lt hlt)]
    · rename_i hge
      split
      · rename_i heq
        obtain rfl : i = r.slots.length := heq
        rw [Nat.sub_self]
        rfl
      · rename_i hne
        have hne : i ≠ r.slots.length := hne
        rw [List.getElem?_eq_none (by simp; omega), List.getElem?_eq_none (by omega)]
  · rw [List.getElem?_set]
    have hlt := (List.getElem?_eq_some_iff.mp hslot).1
    split
    · rename_i heq
      rw [if_pos heq.symm]
    · rename_i hne
      rw [if_neg (Ne.symm hne)]

theorem Sound.insert (hr : r.Sound) (h : r.insert a = some (k, r')) : r'.Sound := by
  have hslots := slots_insert hr h
  have hcases := insert_cases hr h
  constructor
  -- a slot more, or an index less that waits
  · obtain ⟨-, hlt, -, rfl⟩ | ⟨free, -, -, rfl⟩ := hcases
    · rw [List.length_append]
      exact hlt
    · rw [List.length_set]
      exact hr.length_le
  · intro i s hs
    rw [hslots] at hs
    split at hs
    · cases hs
      -- the new slot is of the first generation, and one that was free is of the next
      obtain ⟨-, -, rfl, -⟩ | ⟨free, -, hslot, -⟩ := hcases
      · exact (by decide : 0 < keyBound)
      · exact (hr.generation_lt hslot : k.generation < keyBound)
    · exact hr.generation_lt hs
  · intro i hi
    rw [hslots]
    obtain ⟨-, -, -, rfl⟩ | ⟨free, hfree, -, rfl⟩ := hcases
    · exact absurd hi List.not_mem_nil
    · have honce := hr.once
      rw [hfree] at honce
      have hne : i ≠ k.index := by
        rintro rfl
        exact (List.nodup_cons.mp honce).1 hi
      rw [if_neg hne]
      exact hr.free i (hfree ▸ List.mem_cons_of_mem _ hi)
  · obtain ⟨-, -, -, rfl⟩ | ⟨free, hfree, -, rfl⟩ := hcases
    · exact .nil
    · have honce := hr.once
      rw [hfree] at honce
      exact (List.nodup_cons.mp honce).2

/-- What removing a value does. -/
theorem remove_cases (r : Registry α) (k : Key) :
    (r.get? k = none ∧ r.remove k = r) ∨
    ∃ a, r.get? k = some a ∧
      ((k.generation + 1 < keyBound ∧ r.remove k =
        ⟨r.slots.set k.index ⟨k.generation + 1, none⟩, r.free ++ [k.index], r.count - 1⟩) ∨
      (¬k.generation + 1 < keyBound ∧ r.remove k =
        ⟨r.slots.set k.index ⟨k.generation, none⟩, r.free, r.count - 1⟩)) := by
  cases h : r.get? k with
  | none => exact .inl ⟨rfl, congrArg Prod.snd (take_of_get?_eq_none h)⟩
  | some a =>
    refine .inr ⟨a, rfl, ?_⟩
    simp only [remove, take, h]
    split
    · exact .inl ⟨‹_›, rfl⟩
    · exact .inr ⟨‹_›, rfl⟩

/-- The slots after that of a key was replaced. -/
theorem getElem?_set_of_get? {s : Slot α} (h : r.get? k = some a) (i : Nat) :
    (r.slots.set k.index s)[i]? = if i = k.index then some s else r.slots[i]? := by
  have hlt := (List.getElem?_eq_some_iff.mp (get?_iff.mp h)).1
  rw [List.getElem?_set]
  split
  · rename_i heq
    rw [if_pos heq.symm]
  · rename_i hne
    rw [if_neg (Ne.symm hne)]

/-- The index of a key that stands for something does not wait to be used again. -/
theorem index_notMem_free (hr : r.Sound) (h : r.get? k = some a) : k.index ∉ r.free := by
  intro hmem
  obtain ⟨g, hg⟩ := hr.free _ hmem
  rw [get?_iff.mp h] at hg
  cases hg

theorem Sound.remove (hr : r.Sound) (k : Key) : (r.remove k).Sound := by
  -- nothing is there, or the index waits for its next generation, or its generations have run out
  obtain ⟨-, h⟩ | ⟨a, ha, ⟨hlt, h⟩ | ⟨-, h⟩⟩ := remove_cases r k
  · rwa [h]
  · rw [h]
    constructor
    · rw [List.length_set]
      exact hr.length_le
    · intro i s hs
      rw [getElem?_set_of_get? ha] at hs
      split at hs
      · cases hs
        exact hlt
      · exact hr.generation_lt hs
    · intro i hi
      rw [getElem?_set_of_get? ha]
      split
      · exact ⟨_, rfl⟩
      · rename_i hne
        rcases List.mem_append.mp hi with hi | hi
        · exact hr.free i hi
        · exact absurd (List.mem_singleton.mp hi) hne
    · rw [List.nodup_append]
      refine ⟨hr.once, List.pairwise_singleton _ _, ?_⟩
      rintro i hi j hj rfl
      obtain rfl := List.mem_singleton.mp hj
      exact index_notMem_free hr ha hi
  · rw [h]
    constructor
    · rw [List.length_set]
      exact hr.length_le
    · intro i s hs
      rw [getElem?_set_of_get? ha] at hs
      split at hs
      · cases hs
        exact (hr.generation_lt (get?_iff.mp ha) : k.generation < keyBound)
      · exact hr.generation_lt hs
    · intro i hi
      have hne : i ≠ k.index := by
        rintro rfl
        exact index_notMem_free hr ha hi
      rw [getElem?_set_of_get? ha, if_neg hne]
      exact hr.free i hi
    · exact hr.once

/-! ### Keys -/

theorem get?_remove_self (r : Registry α) (k : Key) : (r.remove k).get? k = none := by
  obtain ⟨hnone, h⟩ | ⟨a, ha, ⟨-, h⟩ | ⟨-, h⟩⟩ := remove_cases r k
  · rw [h, hnone]
  · simp [h, get?, getElem?_set_of_get? ha]
  · simp [h, get?, getElem?_set_of_get? ha]

/-- To remove a key does nothing to others. -/
theorem get?_remove_other (r : Registry α) (hne : j ≠ k) : (r.remove k).get? j = r.get? j := by
  obtain ⟨-, h⟩ | ⟨a, ha, hcases⟩ := remove_cases r k
  · rw [h]
  · by_cases hidx : j.index = k.index
    · -- the value that is removed was of another generation
      have hg : k.generation ≠ j.generation := fun hg => hne (Key.ext hidx hg.symm)
      have hbefore : r.get? j = none := by
        simp only [get?, hidx, get?_iff.mp ha, if_neg hg]
      rw [hbefore]
      obtain ⟨-, h⟩ | ⟨-, h⟩ := hcases <;>
      · simp [h, get?, getElem?_set_of_get? ha, hidx]
    · obtain ⟨-, h⟩ | ⟨-, h⟩ := hcases <;>
      · simp only [h, get?, getElem?_set_of_get? ha, if_neg hidx]

theorem get?_insert_self (hr : r.Sound) (h : r.insert a = some (k, r')) : r'.get? k = some a := by
  rw [get?_iff, slots_insert hr h, if_pos rfl]

/-- A value that is inside stays. -/
theorem get?_insert_of_get? (hr : r.Sound) (h : r.insert a = some (k, r'))
    (hj : r.get? j = some b) : r'.get? j = some b := by
  have hslot := get?_iff.mp hj
  rw [get?_iff, slots_insert hr h]
  split
  · rename_i heq
    -- the place of the new key was empty
    obtain ⟨-, -, rfl, -⟩ | ⟨free, -, hfree, -⟩ := insert_cases hr h
    · have hlt := (List.getElem?_eq_some_iff.mp hslot).1
      exact absurd heq (Nat.ne_of_lt hlt)
    · rw [heq, hfree] at hslot
      cases congrArg Slot.value (Option.some.inj hslot)
  · exact hslot

/-- Indices and generations of keys are in range. -/
theorem lt_keyBound_of_insert (hr : r.Sound) (h : r.insert a = some (k, r')) :
    k.index < keyBound ∧ k.generation < keyBound := by
  have hslot := get?_iff.mp (get?_insert_self hr h)
  have hr' := hr.insert h
  exact ⟨Nat.lt_of_lt_of_le (List.getElem?_eq_some_iff.mp hslot).1 hr'.length_le,
    hr'.generation_lt hslot⟩

/-- A key whose value has been removed: its index has a later generation, or has
been given up. -/
def Spent (r : Registry α) (k : Key) : Prop :=
  ∃ s, r.slots[k.index]? = some s ∧
    (k.generation < s.generation ∨ s.generation = k.generation ∧ s.value = none ∧
      k.index ∉ r.free)

theorem Spent.get? (h : r.Spent k) : r.get? k = none := by
  obtain ⟨s, hs, hlt | ⟨-, hnone, -⟩⟩ := h
  · simp only [Registry.get?, hs, if_neg (Nat.ne_of_gt hlt)]
  · simp only [Registry.get?, hs, hnone, ite_self]

theorem Spent.insert (hs : r.Spent k) (hr : r.Sound) (h : r.insert a = some (j, r')) :
    r'.Spent k := by
  obtain ⟨s, hs, hspent⟩ := hs
  by_cases heq : k.index = j.index
  · -- the index is used again, for a later generation
    refine ⟨⟨j.generation, some a⟩, ?_, .inl ?_⟩
    · rw [slots_insert hr h, if_pos heq]
    · obtain ⟨-, -, rfl, -⟩ | ⟨free, hfree, hslot, -⟩ := insert_cases hr h
      · exact absurd heq (Nat.ne_of_lt (List.getElem?_eq_some_iff.mp hs).1)
      · rw [← heq, hs] at hslot
        cases hslot
        obtain hlt | ⟨-, -, hnot⟩ := hspent
        · exact hlt
        · exact absurd (hfree ▸ heq ▸ List.mem_cons_self) hnot
  · refine ⟨s, ?_, hspent.imp_right fun ⟨hg, hv, hnot⟩ => ⟨hg, hv, fun hmem => hnot ?_⟩⟩
    · rw [slots_insert hr h, if_neg heq]
      exact hs
    · obtain ⟨-, -, -, rfl⟩ | ⟨free, hfree, -, rfl⟩ := insert_cases hr h
      · exact absurd hmem List.not_mem_nil
      · exact hfree ▸ List.mem_cons_of_mem _ hmem

theorem Spent.remove (hs : r.Spent k) (j : Key) : (r.remove j).Spent k := by
  obtain ⟨-, h⟩ | ⟨a, ha, hcases⟩ := remove_cases r j
  · rwa [h]
  · obtain ⟨s, hs, hspent⟩ := hs
    have hslot := get?_iff.mp ha
    by_cases heq : k.index = j.index
    · -- the value that is removed is of a later generation than the key
      have hlt : k.generation < j.generation := by
        rw [heq, hslot] at hs
        cases hs
        obtain hlt | ⟨-, hnone, -⟩ := hspent
        · exact hlt
        · cases hnone
      obtain ⟨-, h⟩ | ⟨-, h⟩ := hcases
      · refine ⟨⟨j.generation + 1, none⟩, ?_, .inl (Nat.lt_succ_of_lt hlt)⟩
        rw [h, getElem?_set_of_get? ha, if_pos heq]
      · refine ⟨⟨j.generation, none⟩, ?_, .inl hlt⟩
        rw [h, getElem?_set_of_get? ha, if_pos heq]
    · obtain ⟨-, h⟩ | ⟨-, h⟩ := hcases
      · rw [h]
        refine ⟨s, ?_, hspent.imp_right fun ⟨hg, hv, hnot⟩ => ⟨hg, hv, fun hmem => ?_⟩⟩
        · rw [getElem?_set_of_get? ha, if_neg heq]
          exact hs
        · rcases List.mem_append.mp hmem with hmem | hmem
          · exact hnot hmem
          · exact heq (List.mem_singleton.mp hmem)
      · rw [h]
        refine ⟨s, ?_, hspent⟩
        rw [getElem?_set_of_get? ha, if_neg heq]
        exact hs

/-- A key that was given out for a value stands for it, or is spent. -/
def Holds (r : Registry α) (k : Key) (a : α) : Prop := r.get? k = some a ∨ r.Spent k

theorem Holds.insert (hk : r.Holds k a) (hr : r.Sound) (h : r.insert b = some (j, r')) :
    r'.Holds k a :=
  hk.imp (get?_insert_of_get? hr h) fun hs => hs.insert hr h

theorem Holds.remove (hk : r.Holds k a) (hr : r.Sound) (j : Key) : (r.remove j).Holds k a := by
  rcases hk with hk | hk
  · have hslot := get?_iff.mp hk
    obtain ⟨-, h⟩ | ⟨b, hb, hcases⟩ := remove_cases r j
    · rw [h]
      exact .inl hk
    · have hbslot := get?_iff.mp hb
      -- a slot of the same index would be the same key
      by_cases heq : k.index = j.index
      · have hg : j.generation = k.generation := by
          rw [heq, hbslot] at hslot
          exact congrArg Slot.generation (Option.some.inj hslot)
        obtain ⟨-, h⟩ | ⟨-, h⟩ := hcases
        · refine .inr ⟨⟨j.generation + 1, none⟩, ?_, .inl (hg ▸ Nat.lt_succ_self _)⟩
          rw [h, getElem?_set_of_get? hb, if_pos heq]
        · refine .inr ⟨⟨j.generation, none⟩, ?_, .inr ⟨hg, rfl, ?_⟩⟩
          · rw [h, getElem?_set_of_get? hb, if_pos heq]
          · rw [h]
            exact (index_notMem_free hr hk : k.index ∉ r.free)
      · refine .inl (get?_iff.mpr ?_)
        obtain ⟨-, h⟩ | ⟨-, h⟩ := hcases <;>
        · rw [h, getElem?_set_of_get? hb, if_neg heq]
          exact hslot
  · exact .inr (hk.remove j)

/-! ### Steps -/

/-- What happens to a registry at once: a key is cleared, or otherwise nothing, or a
value is put in. -/
inductive Steps (r : Registry α) : Option Key → Registry α → Prop where
  | refl : Steps r none r
  | insert {a : α} {k : Key} {r' : Registry α} (h : r.insert a = some (k, r')) : Steps r none r'
  | remove (k : Key) : Steps r (some k) (r.remove k)

namespace Steps

variable {gone : Option Key}

theorem of_eq (h : r' = r) : r.Steps none r' := h ▸ .refl

theorem sound (h : r.Steps gone r') (hr : r.Sound) : r'.Sound := by
  cases h with
  | refl => exact hr
  | insert h => exact hr.insert h
  | remove k => exact hr.remove k

/-- A spent key stays so through steps. -/
theorem spent (h : r.Steps gone r') (hr : r.Sound) (hk : r.Spent k) : r'.Spent k := by
  cases h with
  | refl => exact hk
  | insert h => exact hk.insert hr h
  | remove j => exact hk.remove j

/-- A key holds its value, now or never again, through steps. -/
theorem holds (h : r.Steps gone r') (hr : r.Sound) (hk : r.Holds k a) : r'.Holds k a := by
  cases h with
  | refl => exact hk
  | insert h => exact hk.insert hr h
  | remove j => exact hk.remove hr j

/-- A key that is not cleared keeps its value. -/
theorem get? (h : r.Steps gone r') (hr : r.Sound) (hgone : gone ≠ some k)
    (hk : r.get? k = some a) : r'.get? k = some a := by
  cases h with
  | refl => exact hk
  | insert h => exact get?_insert_of_get? hr h hk
  | remove j =>
    have hne : k ≠ j := fun heq => hgone (congrArg some heq.symm)
    exact (get?_remove_other r hne).trans hk

/-- A key that is cleared stands for nothing any more. -/
theorem spent_of_gone (h : r.Steps (some k) r') (hr : r.Sound) (hk : r.Holds k a) :
    r'.Spent k := by
  have hheld := h.holds hr hk
  cases h with
  | remove _ =>
    obtain hlive | hspent := hheld
    · rw [get?_remove_self] at hlive
      cases hlive
    · exact hspent

end Steps

end Registry

/-! ### The registries of a run -/

section Runs

variable {γ : Type} {w w₁ : World}

/-- What happens to the callbacks and the wrapped values at once, and which keys of
them are cleared. -/
structure Border.Registers (dismissed cleared : Option Key) (b b₁ : Border) : Prop where
  callbacks : b.callbacks.Steps dismissed b₁.callbacks
  proxies : b.proxies.Steps cleared b₁.proxies

theorem Border.Registers.of_eq {b b₁ : Border} (hcallbacks : b₁.callbacks = b.callbacks)
    (hproxies : b₁.proxies = b.proxies) : b.Registers none none b₁ :=
  ⟨.of_eq hcallbacks, .of_eq hproxies⟩

theorem Border.Registers.refl (b : Border) : b.Registers none none b := .of_eq rfl rfl

/-- The key of a callback that a change clears. -/
def Change.dismissed? {α : Type} : Change α → Option Key
  | .clearCallback k => some k
  | _ => none

/-- The key of a wrapped value that a change clears. -/
def Change.cleared? {α : Type} : Change α → Option Key
  | .clearProxy k => some k
  | _ => none

theorem World.registers_adopt (w : World) (id : ObjectId) :
    w.border.Registers none none (w.adopt id).2.border := by
  unfold World.adopt
  split
  · split <;> exact .of_eq rfl rfl
  · exact .of_eq rfl rfl

theorem World.registers_revive (w : World) (cached : Option Handle) :
    w.border.Registers none none (w.revive cached).2.border := by
  unfold World.revive
  split
  · split <;> exact .of_eq rfl rfl
  · exact .of_eq rfl rfl

theorem World.registers_sweep (w : World) : w.border.Registers none none w.sweep.2.border := by
  rw [World.sweep]
  dsimp only
  split <;> exact .of_eq rfl rfl

theorem Change.registers_run {β : Type} (c : Change β) (w : World) :
    w.border.Registers c.dismissed? c.cleared? (c.run w).2.border := by
  -- two changes insert and two remove; all else leaves the registries alone
  cases c with
  | register c =>
    simp only [run]
    split
    · rename_i key callbacks h
      exact ⟨.insert h, .refl⟩
    · exact .refl _
  | wrap v =>
    simp only [run]
    split
    · rename_i key proxies h
      exact ⟨.refl, .insert h⟩
    · exact .refl _
  | clearCallback key => exact ⟨.remove key, .refl⟩
  | clearProxy key => exact ⟨.refl, .remove key⟩
  | adopt id => exact w.registers_adopt id
  | recallSymbol kind name => exact w.registers_revive _
  | recallNumber key => exact w.registers_revive _
  | sweep => exact w.registers_sweep
  | recordName h name =>
    simp only [run, Border.recordName]
    split
    · split <;> exact .of_eq rfl rfl
    · exact .refl _
  | unwrap? key | recallVariable name =>
    simp only [run]
    split <;> exact .of_eq rfl rfl
  | _ => exact .of_eq rfl rfl

theorem Undo.registers_run (u : Undo) (w : World) :
    w.border.Registers none none (u.run w).border := by
  cases u <;> exact .of_eq rfl rfl

theorem Scope.registers_enter {s : Scope} {u : Undo} (h : s.enter w = .ok (u, w₁)) :
    w.border.Registers none none w₁.border := by
  cases s with
  | evaluation | source =>
    simp only [Scope.enter] at h
    split at h
    · cases h
    · cases h
      exact .of_eq rfl rfl
  | _ =>
    cases h
    exact .of_eq rfl rfl

namespace Moment

variable {α : Type} {m m₁ m₂ m₃ : Moment γ} {ok ok' : Moment γ → Prop} {k : Key} {a : α}

/-- The key of a callback that is about to be cleared. -/
def dismissed? (m : Moment γ) : Option Key :=
  match m.proc with
  | .act c _ => c.dismissed?
  | _ => none

/-- The key of a wrapped value that is about to be cleared. -/
def cleared? (m : Moment γ) : Option Key :=
  match m.proc with
  | .act c _ => c.cleared?
  | _ => none

/-- The registries at each step of a run. -/
theorem Goes.registers (h : Goes m m₁) :
    m.world.border.Registers m.dismissed? m.cleared? m₁.world.border := by
  obtain ⟨p, stack, w⟩ := m
  cases h with
  | next h =>
    cases p with
    | act c next =>
      cases h
      exact Change.registers_run c w
    | _ =>
      obtain heq | ⟨β, c, next, hp, -⟩ | ⟨s, u, hs⟩ | ⟨u, heq⟩ := world_cases h
      · rw [heq]
        exact .refl _
      · cases hp
      · exact Scope.registers_enter hs
      · rw [heq]
        exact Undo.registers_run u _
  | sweep hsafe =>
    cases p with
    | act c next => cases hsafe
    | _ => exact World.registers_sweep w

/-! ### Registries over runs -/

section Registries

variable {R : Border → Registry α} {gone? : Moment γ → Option Key}

/-- A registry over a run. -/
theorem Reaches.registry
    (hsteps : ∀ {m m₁ : Moment γ}, Goes m m₁ →
      (R m.world.border).Steps (gone? m) (R m₁.world.border))
    (h : Reaches ok m m₁) (hm : (R m.world.border).Sound) :
    (R m₁.world.border).Sound ∧
    (∀ {k}, (R m.world.border).Spent k → (R m₁.world.border).Spent k) ∧
    ∀ {k a}, (R m.world.border).Holds k a → (R m₁.world.border).Holds k a := by
  induction h with
  | refl => exact ⟨hm, id, id⟩
  | tail _ hgo ih =>
    obtain ⟨hsound, hspent, hholds⟩ := ih
    have hstep := hsteps hgo.2
    exact ⟨hstep.sound hsound, fun hk => hstep.spent hsound (hspent hk),
      fun hk => hstep.holds hsound (hholds hk)⟩

/-- A key that is not cleared keeps its value. -/
theorem Reaches.registered
    (hsteps : ∀ {m m₁ : Moment γ}, Goes m m₁ →
      (R m.world.border).Steps (gone? m) (R m₁.world.border))
    (h : Reaches (fun m => gone? m ≠ some k) m m₁) (hm : (R m.world.border).Sound)
    (hk : (R m.world.border).get? k = some a) :
    (R m₁.world.border).get? k = some a := by
  induction h with
  | refl => exact hk
  | tail h hgo ih =>
    exact (hsteps hgo.2).get? (Reaches.registry hsteps h hm).1 hgo.1 ih

/-- A key that has been cleared stands for nothing any more. -/
theorem Reaches.unregistered
    (hsteps : ∀ {m m₁ : Moment γ}, Goes m m₁ →
      (R m.world.border).Steps (gone? m) (R m₁.world.border))
    (h : Reaches ok m m₁) (hgone : gone? m₁ = some k) (hnext : Goes m₁ m₂)
    (h' : Reaches ok' m₂ m₃) (hm : (R m.world.border).Sound)
    (hk : (R m.world.border).Holds k a) : (R m₃.world.border).Spent k := by
  obtain ⟨hsound, -, hholds⟩ := Reaches.registry hsteps h hm
  have hstep := hsteps hnext
  rw [hgone] at hstep
  exact (Reaches.registry hsteps h' (hstep.sound hsound)).2.1
    (hstep.spent_of_gone hsound (hholds hk))

end Registries

/-- The callbacks over a run. -/
theorem Reaches.callbacks (h : Reaches ok m m₁) (hm : m.world.border.callbacks.Sound) :
    m₁.world.border.callbacks.Sound ∧
    (∀ {k}, m.world.border.callbacks.Spent k → m₁.world.border.callbacks.Spent k) ∧
    ∀ {k c}, m.world.border.callbacks.Holds k c → m₁.world.border.callbacks.Holds k c :=
  Reaches.registry (fun hgo => hgo.registers.callbacks) h hm

/-- The wrapped values over a run. -/
theorem Reaches.proxies (h : Reaches ok m m₁) (hm : m.world.border.proxies.Sound) :
    m₁.world.border.proxies.Sound ∧
    (∀ {k}, m.world.border.proxies.Spent k → m₁.world.border.proxies.Spent k) ∧
    ∀ {k v}, m.world.border.proxies.Holds k v → m₁.world.border.proxies.Holds k v :=
  Reaches.registry (fun hgo => hgo.registers.proxies) h hm

end Moment

end Runs

end Crossing
