/-!
# Fields

Named fields in ascending order of their names, each name once. Names are
ordered by code point, which for text in UTF-8 is the order of the bytes.

- `Fields.put` replaces the value of a name or inserts it at its place;
- `Fields.find?` looks a name up;
- `find?_put_self` and `find?_put_other` relate the two.
-/

namespace Crossing

/-- Named values, in ascending order of the names. -/
abbrev Fields (α : Type) := List (String × α)

namespace Fields

variable {α : Type}

/-- Gives `name` the value `a`. -/
def put (name : String) (a : α) : Fields α → Fields α
  | [] => [(name, a)]
  | (k, b) :: rest =>
    if name = k then (name, a) :: rest
    else if name < k then (name, a) :: (k, b) :: rest
    else (k, b) :: put name a rest

/-- The value of `name`, if it has one. -/
def find? (name : String) : Fields α → Option α
  | [] => none
  | (k, b) :: rest => if name = k then some b else find? name rest

/-- Fields from pairs in any order; of two pairs with one name the later wins. -/
def ofPairs (pairs : List (String × α)) : Fields α :=
  pairs.foldl (fun fields p => put p.1 p.2 fields) []

@[simp] theorem find?_put_self (name : String) (a : α) (fields : Fields α) :
    find? name (put name a fields) = some a := by
  induction fields with
  | nil => simp [put, find?]
  | cons p rest ih =>
    obtain ⟨k, b⟩ := p
    unfold put
    split
    · simp [find?]
    · split
      · simp [find?]
      · simp_all [find?]

theorem find?_put_other {name other : String} (h : other ≠ name) (a : α) (fields : Fields α) :
    find? other (put name a fields) = find? other fields := by
  induction fields with
  | nil => simp [put, find?, h]
  | cons p rest ih =>
    obtain ⟨k, b⟩ := p
    unfold put
    split
    · next hk => subst hk; simp [find?, h]
    · split
      · simp [find?, h]
      · simp [find?, ih]

end Fields

end Crossing
