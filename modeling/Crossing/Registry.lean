import Crossing.Number.Fixnum

/-!
# Registries

A registry hands out keys for the values put into it. A key is an index and a
generation: an index is used again only after its value has been removed, with
the next generation, so a key never comes back to mean another value. Freed
indices are used again in the order in which they were freed. Indices and
generations fit 32 bits: a registry that has no index left refuses values, and an
index whose generations are used up is given up.

- `Registry.insert`, `Registry.get?`;
- `Registry.take` takes a value out and gives it, `Registry.remove` drops it;
- `Registry.count` is kept up to be the number of values inside.
-/

namespace Crossing

/-- What a registry hands out for a value. -/
@[ext] structure Key where
  index : Nat
  generation : Nat
deriving DecidableEq, Repr

/-- How many indices there are, and how many generations of one. -/
def keyBound : Nat := 4294967296

/-- The index and the generation, as messages show them. -/
def Key.text (k : Key) : String := natText k.index ++ "#" ++ natText k.generation

/-- A place in a registry. -/
structure Slot (α : Type) where
  generation : Nat
  value : Option α

/-- Values under generation-tagged keys. -/
structure Registry (α : Type) where
  slots : List (Slot α)
  /-- The indices that may be used again, the one that has been free for longest
  first. -/
  free : List Nat
  count : Nat

namespace Registry

variable {α : Type}

def empty : Registry α := ⟨[], [], 0⟩

/-- Adds a value at the end, if there is an index left. -/
def append (r : Registry α) (a : α) : Option (Key × Registry α) :=
  if r.slots.length < keyBound then
    some (⟨r.slots.length, 0⟩, ⟨r.slots ++ [⟨0, some a⟩], r.free, r.count + 1⟩)
  else none

/-- Adds a value at the index that has been free for longest, or at the end. -/
def insert (r : Registry α) (a : α) : Option (Key × Registry α) :=
  match r.free with
  | [] => r.append a
  | i :: free =>
    match r.slots[i]? with
    | none => r.append a
    | some slot =>
      some (⟨i, slot.generation⟩,
        ⟨r.slots.set i ⟨slot.generation, some a⟩, free, r.count + 1⟩)

/-- The value under a key. -/
def get? (r : Registry α) (k : Key) : Option α :=
  match r.slots[k.index]? with
  | some slot => if slot.generation = k.generation then slot.value else none
  | none => none

/-- Takes out the value under a key. A key without a value changes nothing, and
the index of a key of the last generation is not free afterwards. -/
def take (r : Registry α) (k : Key) : Option α × Registry α :=
  match r.get? k with
  | none => (none, r)
  | some a =>
    (some a,
      if k.generation + 1 < keyBound then
        ⟨r.slots.set k.index ⟨k.generation + 1, none⟩, r.free ++ [k.index], r.count - 1⟩
      else ⟨r.slots.set k.index ⟨k.generation, none⟩, r.free, r.count - 1⟩)

/-- The registry without the value under a key. -/
def remove (r : Registry α) (k : Key) : Registry α := (r.take k).2

/-- The values inside, in the order of their indices. -/
def values (r : Registry α) : List α := r.slots.filterMap Slot.value

theorem take_of_get?_eq_none {r : Registry α} {k : Key} (h : r.get? k = none) :
    r.take k = (none, r) := by
  simp [take, h]

/-- What is taken out is what the key stood for. -/
theorem take_fst (r : Registry α) (k : Key) : (r.take k).1 = r.get? k := by
  unfold take
  split
  · rename_i h
    exact h.symm
  · rename_i h
    exact h.symm

end Registry

end Crossing
