import Crossing.Evaluation.Checks
import Crossing.Payload

/-!
# The host's side of the exchange

How the host turns objects into parcels and parcels into objects. Numbers,
strings, `nil` and truth cross as data; a marker list crosses as the wrapped
script object that it stands for; everything else is kept and crosses by
reference.

- `Host.send` makes a parcel of an object, `Host.receive` an object of a parcel;
- `Host.ofDatum` builds the object of a datum;
- `Host.structuralForm` is the structural form of an object.
-/

namespace Crossing

namespace Host

open Proc

/-- Gives a result, or fails with an error of the host. -/
def check {α : Type} : Except Signal α → Proc α
  | .ok a => .done a
  | .error s => signal s

/-! ## Building objects -/

/-- The symbol of truth. -/
def truth : Proc Obj := change (.intern truthName)

/-- Truth or `nil`. -/
def ofFlag (b : Bool) : Proc Obj := if b then truth else pure .nil

def ofText (s : String) : Proc Obj := make (.text s)

/-- A list of items that ends in `last`. -/
def dotted (items : List Obj) (last : Obj) : Proc Obj :=
  match items with
  | [] => pure last
  | o :: items => do
    let tail ← dotted items last
    make (.cons o tail)

def list (items : List Obj) : Proc Obj := dotted items .nil

/-- The marker list of a wrapped script object. -/
def marker (key : Key) : Proc Obj := do
  let head ← change (.intern markerName)
  list [head, .int (.ofNat key.index), .int (.ofNat key.generation)]

mutual

/-- The object of a datum: a list becomes a vector, an object a list of
keywords and values. -/
def ofDatum : Json → Proc Obj
  | .null => pure .nil
  | .bool b => ofFlag b
  | .int i => pure (match Fixnum.ofInt? i with
    | some i => .int i
    | none => .float (Float.ofInt i))
  | .float x _ => pure (.float x)
  | .text s => ofText s
  | .list items => do
    let objects ← ofData items
    make (.vector objects)
  | .object fields => do
    let objects ← ofFields fields
    list objects

/-- The objects of some data. -/
def ofData : List Json → Proc (List Obj)
  | [] => pure []
  | j :: js => do
    let o ← ofDatum j
    let objects ← ofData js
    pure (o :: objects)

/-- Keywords and values of some fields. -/
def ofFields : List (String × Json) → Proc (List Obj)
  | [] => pure []
  | (name, j) :: fields => do
    let keyword ← change (.intern (":" ++ name))
    let o ← ofDatum j
    let objects ← ofFields fields
    pure (keyword :: o :: objects)

end

/-! ## Parcels -/

/-- Keeps an object and refers to it. -/
def refer (o : Obj) : Proc Parcel := do
  let id ← change (.retain o)
  pure (.reference id)

/-- The key of two numbers in range. -/
def keyOf? (index generation : Fixnum) : Option Key :=
  if 0 ≤ index.val ∧ index.val < keyBound ∧
      0 ≤ generation.val ∧ generation.val < keyBound then
    some ⟨index.val.toNat, generation.val.toNat⟩
  else none

/-- The key of the wrapped script object that an object is the marker of. -/
def wrapped? (h : Heap) (o : Obj) : Proc (Option Key) :=
  match h.list? o with
  | some [head, .int index, .int generation] => do
    let name ← change (.intern markerName)
    pure (if head.eq name then keyOf? index generation else none)
  | _ => pure none

/-- The parcel that an object crosses in. -/
def send (o : Obj) : Proc Parcel := do
  let h ← heap
  match h.shape o with
  | .nil => pure (.data Json.null.render)
  | .int i => pure (.data (Json.ofFixnum i).render)
  | .float x => match Json.ofFloat? x with
    | some j => pure (.data j.render)
    | none => refer o
  | .cell (.text s) => pure (.data (Json.text s).render)
  | .cell (.symbol name _ _) =>
    if name = truthName then do
      let t ← truth
      if o.eq t then pure (.data (Json.bool true).render) else refer o
    else refer o
  | .cell (.cons _ _) => do
    match ← wrapped? h o with
    | some key => pure (.wrapped key)
    | none => refer o
  | .cell _ => refer o

/-- The object that the host keeps under a number. -/
def resolve (id : ObjectId) : Proc Obj := do
  match ← query (.resolve? id) with
  | some o => pure o
  | none => signal (.unknownReference id)

/-- Reads a datum that was sent to the host. -/
def readDatum (text : String) : Proc Json :=
  match Json.parse text with
  | .ok j => pure j
  | .error fault => signal (.badData fault)

/-- The object that a parcel brings. -/
def receive : Parcel → Proc Obj
  | .data text => do
    let j ← readDatum text
    ofDatum j
  | .reference id => resolve id
  | .wrapped key => marker key

/-- Receives several parcels, the first one first. -/
def receiveAll (parcels : List Parcel) : Proc (List Obj) := parcels.mapM receive

/-- Sends several objects, the first one first. -/
def sendAll (objects : List Obj) : Proc (List Parcel) := objects.mapM send

/-! ## Structural forms -/

/-- The structural form of an object. A symbol named like truth makes the host
look up which symbol stands for truth. -/
def structuralForm (o : Obj) : Proc (Option Json) := do
  let h ← heap
  if h.meetsTruth o then do
    let t ← truth
    pure (h.toJson? t o)
  else pure (h.toJson? .nil o)

end Host

end Crossing
