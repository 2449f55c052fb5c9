import Crossing.Objects.Heap

/-!
# Structural equality and hash tables

Strings are `equal` when their texts are, pairs and vectors when their parts
are, and everything else when it is the same object. A hash table is an
association list whose keys are compared by `equal`.

- `Heap.equal`;
- `Heap.lookup?`, `Heap.insertEntry`.
-/

namespace Crossing

namespace Heap

/-- Structural equality, down to `n` levels. -/
def equalWithin (h : Heap) : (n : Nat) → Obj → Obj → Bool
  | 0, _, _ => false
  | n + 1, a, b =>
    match h.shape a, h.shape b with
    | .cell (.text s), .cell (.text t) => s == t
    | .cell (.cons a₁ d₁), .cell (.cons a₂ d₂) =>
      h.equalWithin n a₁ a₂ && h.equalWithin n d₁ d₂
    | .cell (.vector xs), .cell (.vector ys) =>
      xs.length == ys.length && (xs.zip ys).all fun p => h.equalWithin n p.1 p.2
    | _, _ => a.eq b

/-- Structural equality. Unless an object contains itself, it has no more
levels than the heap has cells. -/
def equal (h : Heap) (a b : Obj) : Bool := h.equalWithin (h.size + 1) a b

/-! ## Entries -/

/-- The value of a key in a table's entries. -/
def lookup? (h : Heap) (key : Obj) (entries : List (Obj × Obj)) : Option Obj :=
  (entries.find? fun e => h.equal e.1 key).map Prod.snd

/-- Gives a key a value: in place if there is an `equal` key, else at the end. -/
def insertEntry (h : Heap) (key value : Obj) : List (Obj × Obj) → List (Obj × Obj)
  | [] => [(key, value)]
  | (k, v) :: rest =>
    if h.equal k key then (k, value) :: rest
    else (k, v) :: h.insertEntry key value rest

/-- The entries of a table. -/
def entries? (h : Heap) (o : Obj) : Option (List (Obj × Obj)) :=
  match h.shape o with
  | .cell (.table entries) => some entries
  | _ => none

/-- Gives a key a value in the table at an address. -/
def putEntry (h : Heap) (a : Addr) (key value : Obj) : Heap :=
  h.modify a fun
    | .table entries => .table (h.insertEntry key value entries)
    | c => c

end Heap

end Crossing
