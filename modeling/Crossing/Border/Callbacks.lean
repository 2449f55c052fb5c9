import Crossing.Border.Packing
import Crossing.Text.Blank

/-!
# Calls of script code

How the host runs script code: a registered function by its key, or source text.
While a callback is in progress the objects among its arguments are pinned, so
that a sweep leaves them alone.

- `Border.invoke` runs a registered function;
- `Border.evaluateSource` evaluates source, unless script code is running and
  the configuration forbids it.
-/

namespace Crossing

namespace Border

open Proc

/-- Runs steps with the given arguments. -/
def play (steps : List Step) (args : List Value) : Proc Value := perform (.play steps args)

/-- Runs a part that gives a value, and packs the value. -/
def packing (part : Proc Value) : Proc Parcel := holding do
  let v ← part
  let (p, _) ← pack v
  pure p

/-! ## Callbacks -/

/-- Runs a script function on what parcels bring. The arguments are given up
before the result is packed. -/
def runCallback (c : Callable) (args : List Parcel) : Proc Parcel :=
  packing (keeping do
    let values ← args.mapM unpack
    play c.body values)

/-- Runs a script function, its callback being in progress meanwhile. -/
def callBack (key : Key) (c : Callable) (args : List Parcel) : Proc Parcel :=
  within (.callback ⟨key, args.filterMap Parcel.reference?⟩) (runCallback c args)

/-- Runs a registered script function. -/
def invoke (key : Key) (args : List Parcel) : Proc Parcel := do
  match ← query (.callback? key) with
  | none => fail (.invalidCallback key)
  | some c =>
    match c.arity with
    | .variadic => callBack key c args
    | .exactly n =>
      if n = args.length then callBack key c args
      else fail (.arityMismatch (some key) n args.length)

/-! ## Source -/

/-- The value of source that is the text of a datum. -/
def literal (source : String) : Except Failure Value :=
  match Json.parse (String.ofList (trimBlanks source.toList)) with
  | .ok j => .ok (.ofJson j)
  | .error fault => .error (.badLiteral fault)

/-- Evaluates source with an evaluator; nothing stands for literals. -/
def evaluateWith (evaluator : Option (List Step)) (source : String) : Proc Value :=
  match evaluator with
  | some body => play body [.text source]
  | none => ofExcept (literal source)

/-- Evaluates source for the host. -/
def evaluateSource (source : String) : Proc Parcel :=
  within .source (packing do
    let evaluator ← query .evaluator
    evaluateWith evaluator source)

end Border

end Crossing
