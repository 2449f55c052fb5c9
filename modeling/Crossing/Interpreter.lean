import Crossing.Objects.Equality
import Crossing.Objects.Plain
import Crossing.Objects.Printing
import Crossing.Parcel

/-!
# The interpreter's state

Everything that the host remembers: the heap, which symbol a name stands for,
the current buffer, how deep evaluation is nested, and which objects it keeps
for the script side under which numbers.

- `Interpreter.intern` gives the symbol of a name;
- `Interpreter.retain` gives a heap object one number for as long as it is
  kept, and `nil` and numbers a new one each time;
- `Interpreter.release` stops keeping the objects of a batch, which
  `Interpreter.drop` takes out of the two tables one after the other;
- `Interpreter.initial` is the state at the start.
-/

namespace Crossing

/-- The state of the host. -/
structure Interpreter where
  heap : Heap
  /-- The symbol of each interned name. -/
  symbols : List (String × Addr)
  /-- The current buffer. -/
  current : Addr
  /-- How many temporary buffers have been named. -/
  temporaries : Nat
  /-- How many evaluations are in progress. -/
  depth : Nat
  /-- The objects kept for the script side, newest first. -/
  retained : List (ObjectId × Obj)
  /-- The number of each heap object that is kept, newest first. -/
  identities : List (Addr × ObjectId)
  /-- The last number given out. -/
  lastId : Nat
  /-- What has been released so far, batch by batch. -/
  batches : List (List ObjectId)

namespace Interpreter

/-! ## Symbols -/

/-- The symbol that a name stands for now. -/
def find? (i : Interpreter) (name : String) : Option Addr :=
  (i.symbols.find? fun s => s.1 == name).map Prod.snd

/-- Changes the heap. -/
def mapHeap (f : Heap → Heap) (i : Interpreter) : Interpreter := { i with heap := f i.heap }

/-- Makes an object. -/
def make (f : Fresh) : Interpreter → Obj × Interpreter
  | ⟨heap, symbols, current, temporaries, depth, retained, identities, lastId, batches⟩ =>
    let (o, heap) := heap.make f
    (o, ⟨heap, symbols, current, temporaries, depth, retained, identities, lastId, batches⟩)

/-- The object that a name stands for: `nil`, or a symbol, which is made if
there is none. -/
def intern (i : Interpreter) (name : String) : Obj × Interpreter :=
  if name = "nil" then (.nil, i)
  else match i.find? name with
    | some a => (.ref a, i)
    | none =>
      (.ref i.heap.size,
        { i with
          heap := (i.heap.allocate (.symbol name none none)).2
          symbols := (name, i.heap.size) :: i.symbols })

/-- Forgets which symbol a name stands for. The symbol itself stays. -/
def unintern (i : Interpreter) (name : String) : Bool × Interpreter :=
  ((i.find? name).isSome, { i with symbols := i.symbols.filter fun s => s.1 != name })

/-! ## Kept objects -/

/-- The number that a heap object is known by. -/
def idOf? (i : Interpreter) (o : Obj) : Option ObjectId :=
  match o.address? with
  | some a => (i.identities.find? fun e => e.1 == a).map Prod.snd
  | none => none

/-- The object kept under a number. -/
def resolve? (i : Interpreter) (id : ObjectId) : Option Obj :=
  (i.retained.find? fun r => r.1 == id).map Prod.snd

/-- Keeps an object under a new number, by which a heap object is known from now on. -/
def keepNew (i : Interpreter) (o : Obj) : ObjectId × Interpreter :=
  let id : ObjectId := ⟨i.lastId + 1⟩
  (id, { i with
    retained := (id, o) :: i.retained
    identities := match o.address? with
      | some a => (a, id) :: i.identities
      | none => i.identities
    lastId := i.lastId + 1 })

/-- Keeps an object for the script side. -/
def retain (i : Interpreter) (o : Obj) : ObjectId × Interpreter :=
  match i.idOf? o with
  | some id => (id, i)
  | none => i.keepNew o

/-- The tables of kept objects without the object under a number, which a heap object is then no
longer known by. -/
def drop (tables : List (ObjectId × Obj) × List (Addr × ObjectId)) (id : ObjectId) :
    List (ObjectId × Obj) × List (Addr × ObjectId) :=
  let (retained, identities) := tables
  (retained.filter fun r => r.1 != id,
    match (retained.find? fun r => r.1 == id).bind fun r => r.2.address? with
    | some a => identities.filter fun e => e.1 != a
    | none => identities)

/-- Stops keeping the objects of a batch. -/
def release (i : Interpreter) (ids : List ObjectId) : Interpreter :=
  let (retained, identities) := ids.foldl drop (i.retained, i.identities)
  { i with retained, identities, batches := i.batches ++ [ids] }

theorem foldl_drop_fst (tables : List (ObjectId × Obj) × List (Addr × ObjectId))
    (ids : List ObjectId) :
    (ids.foldl drop tables).1 = tables.1.filter fun r => !ids.contains r.1 := by
  induction ids generalizing tables with
  | nil => exact (List.filter_eq_self.mpr fun _ _ => rfl).symm
  | cons id ids ih =>
    rw [List.foldl_cons, ih, drop, List.filter_filter]
    simp only [List.contains_cons, Bool.not_or, bne, Bool.and_comm]

/-- What is still kept when a batch has been released. -/
theorem retained_release (i : Interpreter) (ids : List ObjectId) :
    (i.release ids).retained = i.retained.filter fun r => !ids.contains r.1 :=
  foldl_drop_fst _ ids

/-! ## Buffers -/

/-- Makes an empty buffer. -/
def openBuffer (i : Interpreter) (name : String) : Addr × Interpreter :=
  let (a, heap) := i.heap.openBuffer name
  (a, { i with heap })

/-- The live buffer of a name, which is made if there is none. -/
def ensureBuffer (i : Interpreter) (name : String) : Addr × Interpreter :=
  match i.heap.findBuffer? name with
  | some a => (a, i)
  | none => i.openBuffer name

/-- The name of the next temporary buffer. -/
def temporaryName (i : Interpreter) : String :=
  if i.temporaries = 0 then " *temp*" else " *temp*-" ++ natText i.temporaries

/-! ## The start -/

/-- Gives the symbol of a builtin its function. -/
def define (i : Interpreter) (b : Builtin) : Interpreter :=
  let (function, heap) := i.heap.allocate (.builtin b)
  match { i with heap }.intern b.name with
  | (.ref a, i) => { i with heap := i.heap.setFunction a (some function) }
  | (_, i) => i

/-- The state before anything has been evaluated: an empty buffer, the symbol
of truth and the builtins. -/
def initial : Interpreter :=
  Builtin.all.foldl define
    { heap :=
        ⟨#[.buffer "*scratch*" "" true, .symbol truthName (some (.ref 1)) none], [0]⟩
      symbols := [(truthName, 1)]
      current := 0
      temporaries := 0
      depth := 0
      retained := []
      identities := []
      lastId := 0
      batches := [] }

end Interpreter

end Crossing
