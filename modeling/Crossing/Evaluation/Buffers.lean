import Crossing.Evaluation.Exchange

/-!
# Buffers

The functions of the host on buffers. A buffer argument is a live buffer or the
name of one; without one the current buffer is meant, which may have been
killed.
-/

namespace Crossing

namespace Host

open Proc

def currentBuffer : Proc Obj := do
  let a ← query .currentBuffer
  pure (.ref a)

/-- The buffer that an optional argument means. -/
def bufferOr (o : Option Obj) : Proc Addr := do
  match o with
  | none => query .currentBuffer
  | some o =>
    let h ← heap
    check (h.asBuffer o)

/-- The name of a buffer, `nil` for one that has been killed. -/
def bufferName (o : Option Obj) : Proc Obj := do
  let h ← heap
  match o.map h.shape with
  | some (.cell (.buffer _ _ false)) => pure .nil
  | _ => do
    let a ← bufferOr o
    ofText (h.bufferName a)

/-- The live buffer of a name, `nil` if there is none. -/
def getBuffer (name : Obj) : Proc Obj := do
  let h ← heap
  let name ← check (h.asText name)
  pure (match h.findBuffer? name with
    | some a => .ref a
    | none => .nil)

/-- The live buffer of a name, made if there is none. -/
def createBuffer (name : Obj) : Proc Obj := do
  let h ← heap
  let name ← check (h.asText name)
  let a ← change (.ensureBuffer name)
  pure (.ref a)

def selectBuffer (o : Obj) : Proc Obj := do
  let h ← heap
  let a ← check (h.asBuffer o)
  change (.selectBuffer a)
  pure (.ref a)

def killBuffer (o : Option Obj) : Proc Obj := do
  let a ← bufferOr o
  change (.killBuffer a)
  truth

/-- Appends strings to the buffer at an address, up to the first argument that
is none. -/
def appendTexts (a : Addr) : List Obj → Proc Obj
  | [] => pure .nil
  | o :: rest => do
    let h ← heap
    let s ← check (h.asText o)
    change (.appendText a s)
    appendTexts a rest

/-- Appends strings to the current buffer. -/
def insert (args : List Obj) : Proc Obj := do
  let a ← query .currentBuffer
  appendTexts a args

def bufferText : Proc Obj := do
  let h ← heap
  let a ← query .currentBuffer
  ofText (h.bufferText a)

end Host

end Crossing
