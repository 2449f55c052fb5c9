import Crossing.Evaluation.Exchange

/-!
# Symbols

The functions of the host on symbols: their names, values and functions, and
what the function of a symbol says about itself.
-/

namespace Crossing

namespace Host

open Proc

/-- The symbol that a string names. -/
def internText (o : Obj) : Proc Obj := do
  let h ← heap
  let name ← check (h.asText o)
  change (.intern name)

/-- Uninterns a name, given by a string or a symbol, and tells whether it was
interned. -/
def uninternName (o : Obj) : Proc Obj := do
  let h ← heap
  let name ← match h.symbolName? o with
    | some name => pure name
    | none => check (h.asText o)
  let found ← change (.unintern name)
  ofFlag found

def symbolName (o : Obj) : Proc Obj := do
  let h ← heap
  match h.shape o with
  | .nil => ofText "nil"
  | .cell (.symbol name _ _) => ofText name
  | _ => signal (h.wrongType "symbolp" o)

/-- The value of a symbol. Keywords and `nil` stand for themselves. -/
def symbolValue (o : Obj) : Proc Obj := do
  let h ← heap
  match h.shape o with
  | .nil => pure .nil
  | .cell (.symbol name value _) =>
    if isKeywordName name then pure o
    else match value with
      | some v => pure v
      | none => signal (.voidVariable name)
  | _ => signal (h.wrongType "symbolp" o)

/-- The function of a symbol, `nil` if it has none. -/
def symbolFunction (o : Obj) : Proc Obj := do
  let h ← heap
  let a ← check (h.asSymbol o)
  pure ((h.function? a).getD .nil)

/-- Whether evaluating an object finds a value. -/
def isBound (h : Heap) (o : Obj) : Bool :=
  match h.shape o with
  | .cell (.symbol name value _) => isKeywordName name || value.isSome
  | _ => true

/-- Whether an object is a symbol that has a function. -/
def hasFunction (h : Heap) (o : Obj) : Bool :=
  match h.shape o with
  | .cell (.symbol _ _ function) => function.isSome
  | _ => false

def setValue (symbol o : Obj) : Proc Obj := do
  let h ← heap
  let a ← check (h.asSymbol symbol)
  change (.setValue a o)
  pure o

def setFunction (symbol o : Obj) : Proc Obj := do
  let h ← heap
  let a ← check (h.asSymbol symbol)
  change (.setFunction a o)
  pure o

/-! ## What functions say about themselves -/

/-- What an object is, or what its function is if it is a symbol; nothing for a
symbol without a function. -/
def functionShape? (h : Heap) (o : Obj) : Option Shape :=
  match h.shape o with
  | .cell (.symbol _ _ function) => function.map h.shape
  | s => some s

def documentation (o : Obj) : Proc Obj := do
  let h ← heap
  match functionShape? h o with
  | none => signal (.voidFunction ((h.symbolName? o).getD ""))
  | some (.cell (.closure l)) => match l.doc with
    | some doc => ofText doc
    | none => pure .nil
  | some _ => pure .nil

/-- Whether an object is a function that is a command. -/
def isCommand (h : Heap) (o : Obj) : Bool :=
  match functionShape? h o with
  | some (.cell (.closure l)) => l.interactive.isSome
  | _ => false

/-! ## Errors by name -/

/-- Fails with an error under a symbol, its text being a printed object. -/
def signalUnder (symbol data : Obj) : Proc Obj := do
  let h ← heap
  match h.symbolName? symbol with
  | some name => signal (.custom name (h.print data))
  | none => signal (h.wrongType "symbolp" symbol)

/-- The text of a format in which each `%s` and each `%d` stands for the next
object: a string for its text, anything else as it is printed. -/
def formatText (h : Heap) : List Char → List Obj → Except Signal (List Char)
  | [], _ => .ok []
  | [c], _ => .ok [c]
  | c :: d :: cs, args =>
    if c = '%' ∧ (d = 's' ∨ d = 'd') then
      match args with
      | [] => .error .missingFormatArgument
      | o :: args => do
        let rest ← formatText h cs args
        pure (((h.text? o).getD (h.print o)).toList ++ rest)
    else do
      let rest ← formatText h (d :: cs) args
      pure (c :: rest)

/-- Fails with a text of the program's own. -/
def raise (format : Obj) (args : List Obj) : Proc Obj := do
  let h ← heap
  let format ← check (h.asText format)
  let message ← check (formatText h format.toList args)
  signal (.user (String.ofList message))

end Host

end Crossing
