import Crossing.Evaluation.Control

/-!
# Variables and scopes

The special forms that set and bind variables, and those that choose a buffer.
Variables are bound dynamically: a binding holds for everything that runs until
its form ends, and then the former value is back. The same goes for the current
buffer.
-/

namespace Crossing

namespace Host

open Proc

/-! ## Setting -/

/-- Sets symbols to values, one after the other. -/
def assignPairs : List Obj → (last : Obj) → Proc Obj
  | name :: form :: rest, _ => do
    let h ← heap
    let a ← check (h.asSymbol name)
    let o ← evaluate form
    change (.setValue a o)
    assignPairs rest o
  | _, last => pure last

def setq (args : List Obj) : Proc Obj :=
  if args.length % 2 = 0 then assignPairs args .nil else wrongForm "setq"

/-- Sets a symbol to a value if it has none. -/
def defvar (args : List Obj) : Proc Obj :=
  match args with
  | [] => wrongForm "defvar"
  | [name] => do
    let h ← heap
    let _ ← check (h.asSymbol name)
    pure name
  | name :: form :: _ => do
    let h ← heap
    let a ← check (h.asSymbol name)
    if (h.value? a).isSome then pure name
    else do
      let o ← evaluate form
      change (.setValue a o)
      pure name

/-! ## Binding -/

/-- The symbol and the form of a binding. A symbol alone is bound to `nil`. -/
def readBinding (h : Heap) (o : Obj) : Except Signal (Addr × Obj) :=
  match h.symbol? o with
  | some a => .ok (a, .nil)
  | none => match h.shape o with
    | .cell (.cons head tail) => do
      let a ← h.asSymbol head
      pure (a, h.head tail)
    | _ => .error (.badBinding (h.print o))

/-- Evaluates a body while symbols are bound, each binding being made before
the next form is evaluated. -/
def bindOneByOne : List (Addr × Obj) → (body : List Obj) → Proc Obj
  | [], body => sequence body
  | (a, form) :: bindings, body => do
    let o ← evaluate form
    within (.binding [(a, o)]) (bindOneByOne bindings body)

/-- Evaluates a body while symbols are bound, all forms being evaluated before
the first binding is made. -/
def bindTogether (bindings : List (Addr × Obj)) (body : List Obj) : Proc Obj := do
  let values ← bindings.mapM fun b => do
    let o ← evaluate b.2
    pure (b.1, o)
  within (.binding values) (sequence body)

/-- A form that binds variables. -/
def letForm (sequential : Bool) (args : List Obj) : Proc Obj :=
  match args with
  | [] => wrongForm "let"
  | spec :: body => do
    let h ← heap
    let items ← check (h.asList "listp" spec)
    let bindings ← check (items.mapM (readBinding h))
    if sequential then bindOneByOne bindings body else bindTogether bindings body

/-! ## Buffers -/

/-- Evaluates a body while another buffer is current. -/
def withBuffer (args : List Obj) : Proc Obj :=
  match args with
  | [] => wrongForm "with-current-buffer"
  | form :: body => do
    let o ← evaluate form
    let h ← heap
    let a ← check (h.asBuffer o)
    within (.buffer a) (sequence body)

/-- Evaluates a body in a temporary buffer. -/
def withTemporaryBuffer (body : List Obj) : Proc Obj := do
  let name ← change .temporaryName
  let a ← change (.ensureBuffer name)
  within (.temporary a) (sequence body)

end Host

end Crossing
