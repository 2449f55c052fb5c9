import Crossing.Evaluation.Checks

/-!
# Closures

What a lambda list says: the parameters, of which those after `&optional` may
be left out and the one after `&rest` takes all further arguments, then a
documentation string if something follows it, then how the function is a
command, then the body.

- `Lambda.ofForms` reads a lambda list;
- `Lambda.bindings` gives the parameters their arguments.
-/

namespace Crossing

/-- What the next parameters of a lambda list are. -/
inductive ParameterKind where
  | required
  | optional
  | rest
deriving DecidableEq, Repr

namespace Lambda

/-- A function without parameters that does nothing. -/
def empty : Lambda := ⟨[], [], none, none, none, []⟩

/-! ## Reading lambda lists -/

/-- Takes in a parameter of the given kind. -/
def addParameter (l : Lambda) (kind : ParameterKind) (a : Addr) : Lambda :=
  match kind with
  | .required => { l with required := l.required ++ [a] }
  | .optional => { l with optional := l.optional ++ [a] }
  | .rest => { l with rest := some a }

/-- Takes in the next symbol of a parameter list: a marker changes the kind of
what follows, anything else is a parameter. -/
def readParameter (h : Heap) (state : ParameterKind × Lambda) (o : Obj) :
    Except Signal (ParameterKind × Lambda) :=
  match o, h.symbolName? o with
  | .ref a, some name =>
    if name = "&optional" then .ok (.optional, state.2)
    else if name = "&rest" then .ok (.rest, state.2)
    else .ok (state.1, state.2.addParameter state.1 a)
  | _, _ => .error (.badParameter (h.print o))

/-- Splits off the documentation, which is not the whole body. -/
def splitDoc (h : Heap) (body : List Obj) : Option String × List Obj :=
  match body with
  | o :: next :: rest => match h.text? o with
    | some doc => (some doc, next :: rest)
    | none => (none, body)
  | _ => (none, body)

/-- Splits off the declaration that the function is a command. -/
def splitCommand (h : Heap) (body : List Obj) : Option Obj × List Obj :=
  match body with
  | o :: rest =>
    if h.symbolName? (h.head o) = some "interactive" then
      (some (h.head (h.tail o)), rest)
    else (none, body)
  | [] => (none, body)

/-- The closure of what follows the word `lambda`. -/
def ofForms (h : Heap) : List Obj → Except Signal Lambda
  | [] => .error .missingParameters
  | parameters :: body => do
    let items ← match h.list? parameters with
      | some items => pure items
      | none => throw (.invalidFunction (h.print parameters))
    let (_, l) ← items.foldlM (readParameter h) (.required, empty)
    let (doc, body) := splitDoc h body
    let (interactive, body) := splitCommand h body
    pure { l with doc, interactive, body }

/-! ## Arguments -/

/-- Most arguments that the parameters before `&rest` take. -/
def most (l : Lambda) : Nat := l.required.length + l.optional.length

def accepts (l : Lambda) (count : Nat) : Bool :=
  decide (l.required.length ≤ count) && (l.rest.isSome || decide (count ≤ l.most))

/-- Parameters with their arguments. A missing argument is `nil`. -/
def pair : List Addr → List Obj → List (Addr × Obj)
  | [], _ => []
  | a :: as, [] => (a, .nil) :: pair as []
  | a :: as, o :: os => (a, o) :: pair as os

/-- The parameters before `&rest` with their arguments. -/
def bindings (l : Lambda) (args : List Obj) : List (Addr × Obj) :=
  pair (l.required ++ l.optional) args

end Lambda

/-- Whether an object is a lambda list with its word. -/
def Heap.isLambda (h : Heap) (o : Obj) : Bool := h.symbolName? (h.head o) = some "lambda"

/-- What follows the word of a lambda list; nothing if it is no proper list. -/
def Heap.lambdaForms (h : Heap) (o : Obj) : List Obj := (h.list? (h.tail o)).getD []

end Crossing
