import Crossing.Interpreter
import Crossing.Script.Answer

/-!
# The world

The state of everything that runs: the interpreter, the border between the two
runtimes, what script code remembers, and the clock.

The border tracks every object that the script side may still refer to. A
handle is *live* while it is held by running code, by a variable or by a wrapped
value. An object whose handle is not live is released by the next sweep, unless
a callback in progress has it among its arguments.

- `World.roots` lists the live handles, `World.isLive` tests one;
- `World.adopt` gives the live handle of an object, or makes one;
- `World.sweep` releases what is neither live nor pinned.
-/

namespace Crossing

/-! ## The border -/

/-- An object that the script side may refer to: its number, the serial number
of its last handle, and the name that this handle was looked up by. -/
structure Tracked where
  id : ObjectId
  serial : Nat
  name : Option String
deriving DecidableEq, Repr

/-- The handle that an entry is for. -/
def Tracked.handle (t : Tracked) : Handle := ⟨t.serial, t.id⟩

/-- What a cached number is found by: its kind and its bits. -/
inductive NumberKey where
  | int (i : Fixnum)
  | float (bits : UInt64)
deriving DecidableEq

/-- A callback in progress: which one, and the objects among its arguments. -/
structure PendingCall where
  callback : Key
  pinned : List ObjectId
deriving DecidableEq, Repr

/-- The state of the border. -/
structure Border where
  config : Config
  /-- The tracked objects, by ascending number. -/
  tracked : List Tracked
  /-- The last serial number of a handle. -/
  lastSerial : Nat
  /-- The handles that names were looked up by. -/
  symbolCache : List ((SymbolKind × String) × Handle)
  /-- The handles that numbers were sent by. -/
  numberCache : List (NumberKey × Handle)
  /-- The script functions that the host may call. -/
  callbacks : Registry Callable
  /-- The values wrapped for the host. -/
  proxies : Registry Value
  /-- Callbacks in progress, innermost first. -/
  pending : List PendingCall
  /-- How many calls of the host are in progress. -/
  outbound : Nat
  /-- Whether script source is being evaluated. -/
  evaluating : Bool
  /-- What evaluates script source; nothing stands for literals. -/
  evaluator : Option (List Step)
  /-- How many objects have been released. -/
  released : Nat

namespace Border

def initial (config : Config) : Border where
  config := config
  tracked := []
  lastSerial := 0
  symbolCache := []
  numberCache := []
  callbacks := .empty
  proxies := .empty
  pending := []
  outbound := 0
  evaluating := false
  evaluator := none
  released := 0

/-- The objects that callbacks in progress have among their arguments. -/
def pinned (b : Border) : List ObjectId := b.pending.flatMap PendingCall.pinned

/-- Whether script code is on the stack. -/
def isRunning (b : Border) : Bool :=
  decide (0 < b.pending.length) || decide (0 < b.outbound) || b.evaluating

/-- The entry of an object. -/
def record? (b : Border) (id : ObjectId) : Option Tracked := b.tracked.find? fun t => t.id == id

/-- Puts an entry in the place of the one for the same object, or at the place
of its number. -/
def track (entry : Tracked) : List Tracked → List Tracked
  | [] => [entry]
  | t :: ts =>
    if t.id = entry.id then entry :: ts
    else if entry.id.val < t.id.val then entry :: t :: ts
    else t :: track entry ts

/-- The name that a handle was looked up by. -/
def nameOf? (b : Border) (h : Handle) : Option String :=
  match b.record? h.id with
  | some t => if t.serial = h.serial then t.name else none
  | none => none

/-- Notes the name that a handle was looked up by. The first one stays. -/
def recordName (b : Border) (h : Handle) (name : String) : Border :=
  match b.record? h.id with
  | some t =>
    if t.serial = h.serial ∧ t.name = none then
      { b with tracked := track { t with name := some name } b.tracked }
    else b
  | none => b

end Border

/-! ## Script code and the clock -/

/-- What script code remembers. -/
structure Memory where
  /-- The handles that running code holds, newest first. -/
  held : List Handle
  assigned : List (String × Value)
  log : List Answer
  /-- The identity of the last function that was made. -/
  lastFunction : Nat

namespace Memory

def initial : Memory := ⟨[], [], [], 0⟩

def find? (m : Memory) (name : String) : Option Value :=
  (m.assigned.find? fun v => v.1 == name).map Prod.snd

/-- Removes a variable. -/
def forget (m : Memory) (name : String) : Memory :=
  { m with assigned := m.assigned.filter fun v => v.1 != name }

/-- Gives a variable a value. -/
def assign (m : Memory) (name : String) (v : Value) : Memory :=
  { m with assigned := (name, v) :: (m.forget name).assigned }

end Memory

/-- The time, and when each periodic sweeper was started. -/
structure Clock where
  now : Nat
  sweepers : List Nat

namespace Clock

def initial : Clock := ⟨0, []⟩

/-- Whether a sweeper is due between now and `ms` milliseconds from now. -/
def isDue (c : Clock) (interval ms : Nat) : Bool :=
  c.sweepers.any fun start =>
    decide ((c.now - start) / interval < (c.now + ms - start) / interval)

end Clock

/-! ## The world -/

/-- The state of everything that runs. -/
structure World where
  host : Interpreter
  border : Border
  script : Memory
  clock : Clock

namespace World

def initial (config : Config) : World :=
  ⟨.initial, .initial config, .initial, .initial⟩

/-- The live handles: those held by running code, in assigned and in wrapped
values. -/
def roots (w : World) : List Handle :=
  w.script.held ++ w.script.assigned.flatMap (fun v => v.2.handles) ++
    w.border.proxies.values.flatMap Value.handles

def isLive (w : World) (h : Handle) : Bool := w.roots.contains h

/-- Lets running code hold handles. -/
def hold (w : World) (hs : List Handle) : World :=
  { w with script := { w.script with held := hs ++ w.script.held } }

/-- Makes a new handle for an object, to be held by running code. -/
def makeHandle (w : World) (id : ObjectId) : Handle × World :=
  let serial := w.border.lastSerial + 1
  (⟨serial, id⟩,
    { w with
      border := { w.border with
        tracked := Border.track ⟨id, serial, none⟩ w.border.tracked
        lastSerial := serial } }.hold [⟨serial, id⟩])

/-- The handle of an object, to be held by running code: the live one, or a new
one if there is none. -/
def adopt (w : World) (id : ObjectId) : Handle × World :=
  match w.border.record? id with
  | some t => if w.isLive t.handle then (t.handle, w.hold [t.handle]) else w.makeHandle id
  | none => w.makeHandle id

/-- The live handle of a cache entry, to be held by running code. -/
def revive (w : World) (cached : Option Handle) : Option Handle × World :=
  match cached with
  | some h => if w.isLive h then (some h, w.hold [h]) else (none, w)
  | none => (none, w)

/-- The tracked objects that are neither live nor pinned, by ascending number. -/
def unreachable (w : World) : List ObjectId :=
  (w.border.tracked.filter fun t =>
    !w.isLive t.handle && !w.border.pinned.contains t.id).map Tracked.id

/-- Stops tracking objects and has the host release them, in one batch if there
are any. Cache entries without a live handle go too. -/
def sweep (w : World) : Nat × World :=
  let batch := w.unreachable
  let border := { w.border with
    tracked := w.border.tracked.filter fun t => !batch.contains t.id
    symbolCache := w.border.symbolCache.filter fun e => w.isLive e.2
    numberCache := w.border.numberCache.filter fun e => w.isLive e.2
    released := w.border.released + batch.length }
  (batch.length,
    if batch.isEmpty then { w with border }
    else { w with border, host := w.host.release batch })

/-- Counts of what the two sides hold. -/
def stats (w : World) : Stats where
  live := (w.border.tracked.filter fun t => w.isLive t.handle).length
  tracked := w.border.tracked.length
  callbacks := w.border.callbacks.count
  proxies := w.border.proxies.count
  depth := w.border.pending.length
  released := w.border.released
  retained := w.host.retained.length
  batches := w.host.batches.length
  buffer := w.host.heap.bufferName w.host.current

end World

end Crossing
