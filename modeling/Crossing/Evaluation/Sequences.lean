import Crossing.Evaluation.Exchange

/-!
# Lists, vectors and strings

The functions of the host on sequences. Lists have to be proper, except where
a missing item is harmless.
-/

namespace Crossing

namespace Host

open Proc

/-- The first half of a pair; `nil` has one too. -/
def car (o : Obj) : Proc Obj := do
  let h ← heap
  match h.shape o with
  | .cell (.cons head _) => pure head
  | .nil => pure .nil
  | _ => signal (h.wrongType "listp" o)

/-- The second half of a pair; `nil` has one too. -/
def cdr (o : Obj) : Proc Obj := do
  let h ← heap
  match h.shape o with
  | .cell (.cons _ tail) => pure tail
  | .nil => pure .nil
  | _ => signal (h.wrongType "listp" o)

/-- Replaces the first half of a pair. -/
def setCar (pair o : Obj) : Proc Obj := do
  let h ← heap
  match pair, h.shape pair with
  | .ref a, .cell (.cons _ _) => do
    change (.setHead a o)
    pure o
  | _, _ => signal (h.wrongType "consp" pair)

/-- The item at a place of a list. Before the first place stands the first item,
after the last one `nil`. -/
def nth (place items : Obj) : Proc Obj := do
  let h ← heap
  let i ← check (h.asInt place)
  let items ← check (h.asList "listp" items)
  pure (items.getD i.val.toNat .nil)

def length (o : Obj) : Proc Obj := do
  let h ← heap
  match h.shape o with
  | .cell (.text s) => pure (.int (.ofNat s.length))
  | .cell (.vector items) => pure (.int (.ofNat items.length))
  | _ => do
    let items ← check (h.asList "sequencep" o)
    pure (.int (.ofNat items.length))

/-- A vector or a list with the items in reverse order. -/
def reverse (o : Obj) : Proc Obj := do
  let h ← heap
  match h.shape o with
  | .cell (.vector items) => make (.vector items.reverse)
  | _ => do
    let items ← check (h.asList "sequencep" o)
    list items.reverse

/-- The item after the first key that is the same, among keys and values in turn. -/
def valueAfter (key : Obj) : List Obj → Option Obj
  | k :: v :: rest => if k.eq key then some v else valueAfter key rest
  | _ => none

/-- The value of a key in a list of keys and values. -/
def plistGet (items key : Obj) : Proc Obj := do
  let h ← heap
  pure ((valueAfter key ((h.list? items).getD [])).getD .nil)

/-- The texts of strings, `nil` being the empty one. -/
def texts (h : Heap) : List Obj → Except Signal (List String)
  | [] => .ok []
  | .nil :: rest => texts h rest
  | o :: rest => do
    let s ← h.asText o
    let ss ← texts h rest
    pure (s :: ss)

/-- The strings in one. -/
def concat (args : List Obj) : Proc Obj := do
  let h ← heap
  let ss ← check (texts h args)
  ofText (String.join ss)

/-! ## Vectors -/

/-- A vector that has the same item everywhere. -/
def makeVector (count o : Obj) : Proc Obj := do
  let h ← heap
  let n ← check (h.asNat "wholenump" count)
  make (.vector (List.replicate n o))

/-- A place of a vector: its address, its items and the index, which is in range. -/
def place (h : Heap) (vector index : Obj) : Except Signal (Addr × List Obj × Nat) := do
  match vector, h.shape vector with
  | .ref a, .cell (.vector items) =>
    let i ← h.asNat "natnump" index
    if i < items.length then pure (a, items, i) else throw (.outOfRange (h.print index))
  | _, _ => throw (h.wrongType "arrayp" vector)

def aref (vector index : Obj) : Proc Obj := do
  let h ← heap
  let (_, items, i) ← check (place h vector index)
  pure (items.getD i .nil)

def aset (vector index o : Obj) : Proc Obj := do
  let h ← heap
  let (a, _, i) ← check (place h vector index)
  change (.setItem a i o)
  pure o

end Host

end Crossing
