import Crossing.World

/-!
# Actions

The atomic actions on the world that procedures are made of. Nothing else reads
or changes the world, so what all actions keep, every procedure keeps.

- `Query` reads, `Change` writes, each with the meaning of its constructors
  beside it;
- `Scope` is a change that is undone when a part of a procedure ends, however
  it ends; `Undo` is what remains to be done then. A scope may be refused.
-/

namespace Crossing

/-! ## Queries -/

/-- What can be asked of the world. -/
inductive Query : Type → Type where
  | heap : Query Heap
  /-- The symbol that a name stands for. -/
  | symbol? (name : String) : Query (Option Addr)
  | currentBuffer : Query Addr
  /-- The object that the host keeps under a number. -/
  | resolve? (id : ObjectId) : Query (Option Obj)
  | config : Query Config
  /-- The function registered under a key. -/
  | callback? (key : Key) : Query (Option Callable)
  | evaluator : Query (Option (List Step))
  /-- The name that a handle was looked up by. -/
  | nameOf? (h : Handle) : Query (Option String)
  | stats : Query Stats
  | retainedCount : Query Nat
  | batches : Query (List (List ObjectId))

def Query.ask {α : Type} : Query α → World → α
  | .heap, w => w.host.heap
  | .symbol? name, w => w.host.find? name
  | .currentBuffer, w => w.host.current
  | .resolve? id, w => w.host.resolve? id
  | .config, w => w.border.config
  | .callback? key, w => w.border.callbacks.get? key
  | .evaluator, w => w.border.evaluator
  | .nameOf? h, w => w.border.nameOf? h
  | .stats, w => w.stats
  | .retainedCount, w => w.host.retained.length
  | .batches, w => w.host.batches

/-! ## Changes -/

/-- What can be done to the world, with the type of what it gives back. -/
inductive Change : Type → Type where
  /-- Makes an object. -/
  | make (f : Fresh) : Change Obj
  | intern (name : String) : Change Obj
  /-- Uninterns a name and tells whether it was interned. -/
  | unintern (name : String) : Change Bool
  | setHead (a : Addr) (o : Obj) : Change Unit
  | setValue (a : Addr) (o : Obj) : Change Unit
  | setFunction (a : Addr) (o : Obj) : Change Unit
  | setItem (a : Addr) (i : Nat) (o : Obj) : Change Unit
  | putEntry (a : Addr) (key value : Obj) : Change Unit
  /-- The live buffer of a name, made if there is none. -/
  | ensureBuffer (name : String) : Change Addr
  | killBuffer (a : Addr) : Change Unit
  | selectBuffer (a : Addr) : Change Unit
  | appendText (a : Addr) (s : String) : Change Unit
  /-- A name for a temporary buffer, which is not given again. -/
  | temporaryName : Change String
  /-- Keeps an object for the script side. -/
  | retain (o : Obj) : Change ObjectId
  /-- Stops keeping objects, whether or not the border tracks them. -/
  | release (ids : List ObjectId) : Change Unit
  /-- The live handle of an object, held by running code. -/
  | adopt (id : ObjectId) : Change Handle
  | recordName (h : Handle) (name : String) : Change Unit
  /-- The live handle that a name was last looked up by, held by running code. -/
  | recallSymbol (kind : SymbolKind) (name : String) : Change (Option Handle)
  | cacheSymbol (kind : SymbolKind) (name : String) (h : Handle) : Change Unit
  /-- The live handle that a number was last sent by, held by running code. -/
  | recallNumber (key : NumberKey) : Change (Option Handle)
  | cacheNumber (key : NumberKey) (h : Handle) : Change Unit
  /-- Registers a function that the host may call, if there is a key left. -/
  | register (c : Callable) : Change (Option Key)
  | clearCallback (key : Key) : Change Unit
  /-- Registers a value that the host may store, if there is a key left. -/
  | wrap (v : Value) : Change (Option Key)
  /-- A wrapped value, its handles held by running code. -/
  | unwrap? (key : Key) : Change (Option Value)
  | clearProxy (key : Key) : Change Unit
  /-- Releases what is neither live nor pinned, and tells how much that was. -/
  | sweep : Change Nat
  | setEvaluator (body : Option (List Step)) : Change Unit
  /-- Holds handles in running code. -/
  | hold (hs : List Handle) : Change Unit
  /-- The value of a variable, its handles held by running code. -/
  | recallVariable (name : String) : Change (Option Value)
  | assign (name : String) (v : Value) : Change Unit
  | forget (name : String) : Change Unit
  | log (a : Answer) : Change Unit
  /-- Empties the log. -/
  | takeLog : Change (List Answer)
  /-- An identity for a function, which is not given again. -/
  | newIdentity : Change Nat
  | startSweeper : Change Unit
  /-- Lets time pass and tells whether a sweeper was due. -/
  | advance (ms : Nat) : Change Bool

namespace World

/-- Does something to the host that gives a result. -/
def onHost {α : Type} (f : Interpreter → α × Interpreter) : World → α × World
  | ⟨host, border, script, clock⟩ =>
    let (a, host) := f host
    (a, ⟨host, border, script, clock⟩)

/-- Changes the heap. -/
def mapHeap (f : Heap → Heap) (w : World) : World :=
  (w.onHost fun i => ((), i.mapHeap f)).2

end World

def Change.run {α : Type} : Change α → World → α × World
  | .make f, w => w.onHost fun i => i.make f
  | .intern name, w => w.onHost fun i => i.intern name
  | .unintern name, w => w.onHost fun i => i.unintern name
  | .setHead a o, w => ((), w.mapHeap fun h => h.setHead a o)
  | .setValue a o, w => ((), w.mapHeap fun h => h.setValue a (some o))
  | .setFunction a o, w => ((), w.mapHeap fun h => h.setFunction a (some o))
  | .setItem a i o, w => ((), w.mapHeap fun h => h.setItem a i o)
  | .putEntry a key value, w => ((), w.mapHeap fun h => h.putEntry a key value)
  | .ensureBuffer name, w => w.onHost fun i => i.ensureBuffer name
  | .killBuffer a, w => ((), w.mapHeap fun h => h.kill a)
  | .selectBuffer a, w => ((), { w with host := { w.host with current := a } })
  | .appendText a s, w => ((), w.mapHeap fun h => h.appendText a s)
  | .temporaryName, w =>
    (w.host.temporaryName,
      { w with host := { w.host with temporaries := w.host.temporaries + 1 } })
  | .retain o, w => w.onHost fun i => i.retain o
  | .release ids, w => ((), { w with host := w.host.release ids })
  | .adopt id, w => w.adopt id
  | .recordName h name, w => ((), { w with border := w.border.recordName h name })
  | .recallSymbol kind name, w =>
    w.revive ((w.border.symbolCache.find? fun e => e.1 == (kind, name)).map Prod.snd)
  | .cacheSymbol kind name h, w =>
    ((), { w with border := { w.border with
      symbolCache := ((kind, name), h) ::
        w.border.symbolCache.filter fun e => e.1 != (kind, name) } })
  | .recallNumber key, w =>
    w.revive ((w.border.numberCache.find? fun e => e.1 == key).map Prod.snd)
  | .cacheNumber key h, w =>
    ((), { w with border := { w.border with
      numberCache := (key, h) :: w.border.numberCache.filter fun e => e.1 != key } })
  | .register c, w =>
    match w.border.callbacks.insert c with
    | some (key, callbacks) => (some key, { w with border := { w.border with callbacks } })
    | none => (none, w)
  | .clearCallback key, w =>
    ((), { w with border := { w.border with callbacks := w.border.callbacks.remove key } })
  | .wrap v, w =>
    match w.border.proxies.insert v with
    | some (key, proxies) => (some key, { w with border := { w.border with proxies } })
    | none => (none, w)
  | .unwrap? key, w =>
    match w.border.proxies.get? key with
    | some v => (some v, w.hold v.handles)
    | none => (none, w)
  | .clearProxy key, w =>
    ((), { w with border := { w.border with proxies := w.border.proxies.remove key } })
  | .sweep, w => w.sweep
  | .setEvaluator body, w => ((), { w with border := { w.border with evaluator := body } })
  | .hold hs, w => ((), w.hold hs)
  | .recallVariable name, w =>
    match w.script.find? name with
    | some v => (some v, w.hold v.handles)
    | none => (none, w)
  | .assign name v, w => ((), { w with script := w.script.assign name v })
  | .forget name, w => ((), { w with script := w.script.forget name })
  | .log a, w => ((), { w with script := { w.script with log := w.script.log ++ [a] } })
  | .takeLog, w => (w.script.log, { w with script := { w.script with log := [] } })
  | .newIdentity, w =>
    let n := w.script.lastFunction + 1
    (n, { w with script := { w.script with lastFunction := n } })
  | .startSweeper, w =>
    ((), { w with clock := { w.clock with sweepers := w.clock.now :: w.clock.sweepers } })
  | .advance ms, w =>
    (w.clock.isDue w.border.config.intervalMs ms,
      { w with clock := { w.clock with now := w.clock.now + ms } })

/-! ## Scopes -/

/-- A change that lasts as long as a part of a procedure. -/
inductive Scope where
  /-- An evaluation is in progress. There are at most `maxDepth` at a time. -/
  | evaluation
  /-- Symbols have values, bound one after the other. -/
  | binding (bindings : List (Addr × Obj))
  /-- A buffer is current. -/
  | buffer (a : Addr)
  /-- A buffer is current that is killed at the end. -/
  | temporary (a : Addr)
  /-- Handles that are held from now on are given up at the end. -/
  | holding
  /-- A call of the host is in progress. -/
  | outbound
  /-- A callback is in progress. -/
  | callback (call : PendingCall)
  /-- Script source is being evaluated. Unless the configuration allows it, no
  script code may be running then. -/
  | source

/-- What is done when a scope ends. -/
inductive Undo where
  | leaveEvaluation
  /-- Gives symbols the values they had, the last one first. -/
  | restore (saved : List (Addr × Option Obj))
  | select (a : Addr)
  | killAndSelect (temporary a : Addr)
  | holdOnly (hs : List Handle)
  | leaveOutbound
  | leaveCallback
  | leaveSource

/-- Binds symbols one after the other. The values they had come back with the
last one first. -/
def Heap.bind (h : Heap) : (bindings : List (Addr × Obj)) → (saved : List (Addr × Option Obj)) →
    List (Addr × Option Obj) × Heap
  | [], saved => (saved, h)
  | (a, o) :: bindings, saved => (h.setValue a (some o)).bind bindings ((a, h.value? a) :: saved)

/-- Gives symbols values one after the other. -/
def Heap.restore (h : Heap) : List (Addr × Option Obj) → Heap
  | [] => h
  | (a, value) :: saved => (h.setValue a value).restore saved

/-- Starts a scope, or says why it is refused. -/
def Scope.enter : Scope → World → Except Failure (Undo × World)
  | .evaluation, w =>
    if maxDepth ≤ w.host.depth then .error (.signal .nestingTooDeep)
    else .ok (.leaveEvaluation, { w with host := { w.host with depth := w.host.depth + 1 } })
  | .binding bindings, w =>
    let (saved, heap) := w.host.heap.bind bindings []
    .ok (.restore saved, { w with host := { w.host with heap } })
  | .buffer a, w => .ok (.select w.host.current, { w with host := { w.host with current := a } })
  | .temporary a, w =>
    .ok (.killAndSelect a w.host.current, { w with host := { w.host with current := a } })
  | .holding, w => .ok (.holdOnly w.script.held, w)
  | .outbound, w =>
    .ok (.leaveOutbound, { w with border := { w.border with outbound := w.border.outbound + 1 } })
  | .callback call, w =>
    .ok (.leaveCallback, { w with border := { w.border with pending := call :: w.border.pending } })
  | .source, w =>
    if w.border.isRunning && !w.border.config.allowNested then .error .nestedSource
    else .ok (.leaveSource, { w with border := { w.border with evaluating := true } })

/-- Ends a scope. -/
def Undo.run : Undo → World → World
  | .leaveEvaluation, w => { w with host := { w.host with depth := w.host.depth - 1 } }
  | .restore saved, w => w.mapHeap fun h => h.restore saved
  | .select a, w => { w with host := { w.host with current := a } }
  | .killAndSelect temporary a, w =>
    { w with host := { w.host with current := a, heap := w.host.heap.kill temporary } }
  | .holdOnly hs, w => { w with script := { w.script with held := hs } }
  | .leaveOutbound, w => { w with border := { w.border with outbound := w.border.outbound - 1 } }
  | .leaveCallback, w => { w with border := { w.border with pending := w.border.pending.tail } }
  | .leaveSource, w => { w with border := { w.border with evaluating := false } }

/-! ## Tasks -/

/-- The parts of a run that call each other: evaluating a form of the host,
applying a function of the host, making the closure that calls a script
function, playing the steps of one, and playing a single step. -/
inductive Task : Type → Type where
  | evaluate (form : Obj) : Task Obj
  | apply (function : Obj) (args : List Obj) : Task Obj
  | close (c : Callable) : Task Handle
  | play (steps : List Step) (args : List Value) : Task Value
  | step (s : Step) (args : List Value) : Task Outcome

end Crossing
