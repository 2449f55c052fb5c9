import Crossing.Proc.Basic

/-!
# Argument checks

What a function of the host may demand of an object, and the error that it
signals otherwise. `nil` is a list, and its own symbol for reading but not for
writing.
-/

namespace Crossing

namespace Heap

/-- The error for an object that does not satisfy a predicate. -/
def wrongType (h : Heap) (predicate : String) (o : Obj) : Signal :=
  .wrongType predicate (h.print o)

def asInt (h : Heap) : Obj → Except Signal Fixnum
  | .int i => .ok i
  | o => .error (h.wrongType "integerp" o)

/-- An integer that is not negative. -/
def asNat (h : Heap) (predicate : String) (o : Obj) : Except Signal Nat := do
  let i ← h.asInt o
  if 0 ≤ i.val then pure i.val.toNat else throw (h.wrongType predicate o)

def asText (h : Heap) (o : Obj) : Except Signal String :=
  match h.text? o with
  | some s => .ok s
  | none => .error (h.wrongType "stringp" o)

/-- The items of a proper list. -/
def asList (h : Heap) (predicate : String) (o : Obj) : Except Signal (List Obj) :=
  match h.list? o with
  | some items => .ok items
  | none => .error (h.wrongType predicate o)

/-- The address of a symbol. -/
def symbol? (h : Heap) : Obj → Option Addr
  | .ref a => match h.get? a with
    | some (.symbol ..) => some a
    | _ => none
  | _ => none

/-- A symbol whose value or function may be set. -/
def asSymbol (h : Heap) (o : Obj) : Except Signal Addr :=
  match h.symbol? o with
  | some a => .ok a
  | none => match o with
    | .nil => .error .settingConstant
    | _ => .error (h.wrongType "symbolp" o)

/-- A live buffer, or the name of one. -/
def asBuffer (h : Heap) (o : Obj) : Except Signal Addr :=
  match o, h.shape o with
  | .ref a, .cell (.buffer _ _ live) => if live then .ok a else .error .deletedBuffer
  | _, .cell (.text name) => match h.findBuffer? name with
    | some a => .ok a
    | none => .error (.noSuchBuffer name)
  | _, _ => .error (h.wrongType "bufferp" o)

/-- The address and the entries of a hash table. -/
def asTable (h : Heap) (predicate : String) (o : Obj) :
    Except Signal (Addr × List (Obj × Obj)) :=
  match o, h.entries? o with
  | .ref a, some entries => .ok (a, entries)
  | _, _ => .error (h.wrongType predicate o)

/-- A part of the key of a registry. -/
def asKeyPart (h : Heap) (o : Obj) : Except Signal Nat := do
  let n ← h.asNat "natnump" o
  if n < keyBound then pure n else throw (h.wrongType "natnump" o)

/-- The key of a registry, in two parts. -/
def asKey (h : Heap) (index generation : Obj) : Except Signal Key := do
  let index ← h.asKeyPart index
  let generation ← h.asKeyPart generation
  pure ⟨index, generation⟩

end Heap

end Crossing
