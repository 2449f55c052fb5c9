import Crossing.Border.Symbols
import Crossing.Evaluation.Exchange

/-!
# Packing values

How script values become parcels and parcels become script values. Plain data
crosses as text. Numbers cross by references that are remembered as long as
they are live, unless the configuration says otherwise. A function crosses as a
host closure that calls it.

- `Border.pack` also gives the handles that have to be held until the parcel
  has been used;
- `Border.unpack` gives a script value, whose handles are held;
- `Border.materialize` and `Border.wrap` build host objects.
-/

namespace Crossing

/-- What a number is remembered by. -/
def Value.numberKey? : Value → Option NumberKey
  | .int i => some (.int i)
  | .float x => some (.float x.toBits)
  | _ => none

namespace Border

open Proc

/-! ## Host objects from data -/

/-- The handle of an object that the host is to keep. -/
def adopt (o : Obj) : Proc Handle := do
  let id ← change (.retain o)
  change (.adopt id)

/-- Builds the host object of a datum. -/
def materialize (j : Json) : Proc Handle := do
  let text ← ofExcept j.toText
  let j ← Host.readDatum text
  let o ← Host.ofDatum j
  adopt o

/-- The structural form of an object that the host keeps, or the failure to get
one. What has none shows as a native object. -/
def formOrFailure (h : Handle) : Proc (Except Failure Json) := do
  match ← query (.resolve? h.id) with
  | some o => do
    let j ← Host.structuralForm o
    pure (match j with
      | some j => Json.ofText j.render
      | none => .ok (.object [("nativeProxy", .bool true)]))
  | none => pure (.error (.signal (.unknownReference h.id)))

/-- The structural form of an object that the host keeps. -/
def structuralForm (h : Handle) : Proc Json := do
  let form ← formOrFailure h
  ofExcept form

/-! ## Wrapped values -/

/-- Wraps a value for the host, which gets a marker list. -/
def wrap (v : Value) : Proc Handle := do
  match ← change (.wrap v) with
  | some key => do
    let o ← Host.marker key
    adopt o
  | none => fail (.registryFull "reverse proxy")

/-- The value that was wrapped under a key. -/
def unwrap (key : Key) : Proc Value := do
  match ← change (.unwrap? key) with
  | some v => pure v
  | none => fail (.invalidProxy key)

/-! ## Parcels -/

/-- Packs plain data. -/
def packData (v : Value) : Proc Parcel := do
  let text ← ofExcept (v.toJson >>= Json.toText)
  pure (.data text)

/-- Packs a number by reference. -/
def packNumber (key : NumberKey) (v : Value) : Proc Handle := do
  let j ← ofExcept v.toJson
  match ← change (.recallNumber key) with
  | some h => pure h
  | none => do
    let h ← materialize j
    change (.cacheNumber key h)
    pure h

/-- Packs a number the way the configuration says. -/
def packNumberOrData (key : NumberKey) (v : Value) : Proc (Parcel × List Handle) := do
  let config ← query .config
  if config.cacheNumbers then do
    let h ← packNumber key v
    pure (.reference h.id, [h])
  else do
    let p ← packData v
    pure (p, [])

/-- Packs a value. The handles have to be held until the parcel has been used. -/
def pack (v : Value) : Proc (Parcel × List Handle) :=
  match v with
  | .handle h => pure (.reference h.id, [])
  | .function c => do
    let h ← perform (.close c)
    pure (.reference h.id, [h])
  | .native _ => fail .unwrapped
  | v => match v.numberKey? with
    | some key => packNumberOrData key v
    | none => do
      let p ← packData v
      pure (p, [])

/-- Packs values, the first one first. -/
def packAll (vs : List Value) : Proc (List Parcel) :=
  vs.mapM fun v => do
    let (p, _) ← pack v
    pure p

/-- Takes in what the host sent. -/
def unpack : Parcel → Proc Value
  | .data text => do
    let j ← ofExcept (Json.ofText text)
    pure (.ofJson j)
  | .reference id => do
    let h ← change (.adopt id)
    pure (.handle h)
  | .wrapped key => unwrap key

end Border

end Crossing
