import Crossing.Number.Fixnum
import Crossing.Naming
import Crossing.Objects.Builtin

/-!
# Objects of the host

An object is `nil`, a number, or a reference to a cell of the heap. References
are what `eq` compares, and they are never used again for another cell. Lists
are chains of pairs; only the first half of a pair can change.

- `Heap.shape` says what an object is;
- `Heap.allocate` makes a new cell, `Heap.make` what a program asks for;
- `Heap.spine` follows a chain of pairs, `Heap.list?` a proper list;
- `get?_allocate_self`, `get?_allocate_of_lt`: an allocation adds its cell and
  leaves the others as they are.
-/

namespace Crossing

/-- The address of a cell. -/
abbrev Addr := Nat

/-- An object of the host. -/
inductive Obj where
  | nil
  | int (i : Fixnum)
  | float (x : Float)
  | ref (a : Addr)
deriving DecidableEq

namespace Obj

/-- Whether two objects are the same: numbers by kind and bits, all else by
reference. -/
def eq : Obj → Obj → Bool
  | .nil, .nil => true
  | .int i, .int j => i = j
  | .float x, .float y => x.toBits = y.toBits
  | .ref a, .ref b => a = b
  | _, _ => false

def isNil : Obj → Bool
  | .nil => true
  | _ => false

/-- Whether the object lives in the heap. -/
def isHeap : Obj → Bool
  | .ref _ => true
  | _ => false

/-- Where an object of the heap lives: its identity. Anything else has none. -/
def address? : Obj → Option Addr
  | .ref a => some a
  | _ => none

theorem eq_ref_iff {a b : Addr} : (ref a).eq (ref b) = true ↔ a = b := by
  simp [eq]

@[simp] theorem eq_refl (o : Obj) : o.eq o = true := by
  cases o <;> simp [eq]

end Obj

/-- The code of a closure: parameters, documentation, whether it is a command
and with which argument, and the body. -/
structure Lambda where
  required : List Addr
  optional : List Addr
  rest : Option Addr
  doc : Option String
  interactive : Option Obj
  body : List Obj
deriving DecidableEq

/-- What the heap stores at an address. -/
inductive Cell where
  | text (s : String)
  | symbol (name : String) (value function : Option Obj)
  | cons (head tail : Obj)
  | vector (items : List Obj)
  | table (entries : List (Obj × Obj))
  | closure (code : Lambda)
  | builtin (b : Builtin)
  | buffer (name text : String) (live : Bool)
deriving DecidableEq

/-- What a program makes. Symbols are made by interning and buffers by opening
them, and there are never more builtins than at the start. -/
inductive Fresh where
  | text (s : String)
  | cons (head tail : Obj)
  | vector (items : List Obj)
  | table
  | closure (code : Lambda)

/-- A buffer is dead from then on. -/
def Cell.killed : Cell → Cell
  | .buffer name contents _ => .buffer name contents false
  | c => c

/-- What the host stores. -/
structure Heap where
  /-- The cells allocated so far, by address. -/
  cells : Array Cell
  /-- The buffers that have been opened and not been killed, oldest first. -/
  buffers : List Addr

/-- What an object is. -/
inductive Shape where
  | nil
  | int (i : Fixnum)
  | float (x : Float)
  | cell (c : Cell)
deriving DecidableEq

/-- The word for the type of an object. -/
def Shape.typeName : Shape → String
  | .nil => "nil"
  | .int _ => "integer"
  | .float _ => "float"
  | .cell (.text _) => "string"
  | .cell (.symbol ..) => "symbol"
  | .cell (.cons ..) => "cons"
  | .cell (.vector _) => "vector"
  | .cell (.table _) => "hash-table"
  | .cell (.closure _) => "closure"
  | .cell (.builtin _) => "subr"
  | .cell (.buffer ..) => "buffer"

namespace Heap

/-! ## Cells -/

def size (h : Heap) : Nat := h.cells.size

def get? (h : Heap) (a : Addr) : Option Cell := h.cells[a]?

/-- Stores a new cell and returns a reference to it. -/
def allocate (h : Heap) (c : Cell) : Obj × Heap :=
  (.ref h.cells.size, { h with cells := h.cells.push c })

/-- The object; a reference that the heap never gave out counts as `nil`. -/
def known (h : Heap) : Obj → Obj
  | .ref a => if a < h.size then .ref a else .nil
  | o => o

/-- The cell of what a program makes. The second half of a pair is an older
object. -/
def cellOf (h : Heap) : Fresh → Cell
  | .text s => .text s
  | .cons head tail => .cons head (h.known tail)
  | .vector items => .vector items
  | .table => .table []
  | .closure code => .closure code

/-- Makes an object. -/
def make (h : Heap) (f : Fresh) : Obj × Heap := h.allocate (h.cellOf f)

/-- Changes the cell at an address. -/
def modify (h : Heap) (a : Addr) (f : Cell → Cell) : Heap :=
  { h with cells := h.cells.modify a f }

/-- What the object is. A reference that the heap never gave out counts as `nil`. -/
def shape (h : Heap) : Obj → Shape
  | .nil => .nil
  | .int i => .int i
  | .float x => .float x
  | .ref a => match h.get? a with
    | some c => .cell c
    | none => .nil

@[simp] theorem get?_allocate_self (h : Heap) (c : Cell) :
    (h.allocate c).2.get? h.size = some c := by
  simp [allocate, get?, size]

theorem get?_allocate_of_lt {h : Heap} {a : Addr} (c : Cell) (ha : a < h.size) :
    (h.allocate c).2.get? a = h.get? a := by
  simp only [allocate, get?, size] at *
  simp [Array.getElem?_push, Nat.ne_of_lt ha]

@[simp] theorem get?_modify_self (h : Heap) (a : Addr) (f : Cell → Cell) :
    (h.modify a f).get? a = (h.get? a).map f := by
  simp [modify, get?, Array.getElem?_modify]

theorem get?_modify_other {a b : Addr} (h : Heap) (f : Cell → Cell) (hab : b ≠ a) :
    (h.modify a f).get? b = h.get? b := by
  simp [modify, get?, Array.getElem?_modify, hab.symm]

/-! ## Parts of cells -/

/-- The name of a symbol; no text for anything else. -/
def symbolName? (h : Heap) (o : Obj) : Option String :=
  match h.shape o with
  | .cell (.symbol name _ _) => some name
  | _ => none

/-- The text of a string. -/
def text? (h : Heap) (o : Obj) : Option String :=
  match h.shape o with
  | .cell (.text s) => some s
  | _ => none

/-- The value of a symbol, if it has one. -/
def value? (h : Heap) (a : Addr) : Option Obj :=
  match h.get? a with
  | some (.symbol _ value _) => value
  | _ => none

/-- The function of a symbol, if it has one. -/
def function? (h : Heap) (a : Addr) : Option Obj :=
  match h.get? a with
  | some (.symbol _ _ function) => function
  | _ => none

def setValue (h : Heap) (a : Addr) (value : Option Obj) : Heap :=
  h.modify a fun
    | .symbol name _ function => .symbol name value function
    | c => c

def setFunction (h : Heap) (a : Addr) (function : Option Obj) : Heap :=
  h.modify a fun
    | .symbol name value _ => .symbol name value function
    | c => c

/-- Replaces the first half of a pair. -/
def setHead (h : Heap) (a : Addr) (o : Obj) : Heap :=
  h.modify a fun
    | .cons _ tail => .cons o tail
    | c => c

/-- Replaces an item of a vector. -/
def setItem (h : Heap) (a : Addr) (i : Nat) (o : Obj) : Heap :=
  h.modify a fun
    | .vector items => .vector (items.set i o)
    | c => c

/-! ## Lists -/

/-- The first half of a pair, `nil` for anything else. -/
def head (h : Heap) (o : Obj) : Obj :=
  match h.shape o with
  | .cell (.cons head _) => head
  | _ => .nil

/-- The second half of a pair, `nil` for anything else. -/
def tail (h : Heap) (o : Obj) : Obj :=
  match h.shape o with
  | .cell (.cons _ tail) => tail
  | _ => .nil

/-- The first halves along a chain of at most `n` pairs, and what ends it. -/
def spineWithin (h : Heap) : (n : Nat) → Obj → List Obj × Obj
  | 0, o => ([], o)
  | n + 1, o =>
    match h.shape o with
    | .cell (.cons head tail) =>
      let (items, last) := h.spineWithin n tail
      (head :: items, last)
    | _ => ([], o)

/-- The first halves along a chain of pairs, and what ends it. The second half
of a pair is older than the pair, so a chain has no more pairs than the heap. -/
def spine (h : Heap) (o : Obj) : List Obj × Obj := h.spineWithin h.size o

/-- The items of a proper list. -/
def list? (h : Heap) (o : Obj) : Option (List Obj) :=
  match h.spine o with
  | (items, .nil) => some items
  | _ => none

/-! ## Buffers -/

/-- Whether the object is a buffer that has not been killed. -/
def isLiveBuffer (h : Heap) (a : Addr) : Bool :=
  match h.get? a with
  | some (.buffer _ _ live) => live
  | _ => false

def bufferName (h : Heap) (a : Addr) : String :=
  match h.get? a with
  | some (.buffer name _ _) => name
  | _ => ""

def bufferText (h : Heap) (a : Addr) : String :=
  match h.get? a with
  | some (.buffer _ text _) => text
  | _ => ""

/-- The live buffer of a name. -/
def findBuffer? (h : Heap) (name : String) : Option Addr :=
  h.buffers.find? fun a => h.isLiveBuffer a && h.bufferName a == name

/-- What is found lives, and it has the name. -/
theorem of_findBuffer? {h : Heap} {name : String} {a : Addr} (ha : h.findBuffer? name = some a) :
    h.isLiveBuffer a = true ∧ h.bufferName a = name := by
  simpa using List.find?_some ha

/-- Makes an empty buffer. -/
def openBuffer (h : Heap) (name : String) : Addr × Heap :=
  (h.size, { (h.allocate (.buffer name "" true)).2 with buffers := h.buffers ++ [h.size] })

def appendText (h : Heap) (a : Addr) (s : String) : Heap :=
  h.modify a fun
    | .buffer name text live => .buffer name (text ++ s) live
    | c => c

/-- Kills a buffer. -/
def kill (h : Heap) (a : Addr) : Heap :=
  { h.modify a Cell.killed with buffers := h.buffers.filter fun b => b != a }

theorem get?_openBuffer (h : Heap) (name : String) (b : Addr) :
    (h.openBuffer name).2.get? b = (h.allocate (.buffer name "" true)).2.get? b := rfl

theorem get?_kill (h : Heap) (a b : Addr) : (h.kill a).get? b = (h.modify a Cell.killed).get? b :=
  rfl

end Heap

end Crossing
