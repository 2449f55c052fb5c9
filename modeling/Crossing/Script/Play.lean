import Crossing.Border.Callbacks
import Crossing.Border.Forms
import Crossing.Evaluation.Text
import Crossing.Script.Describe
import Crossing.Script.Operand

/-!
# Running script code

What the steps of script code do. The operands of a step are held until its
result is known, and the result until it has been logged and stored.

- `Script.perform` does what a step says;
- `Script.playStep` also logs and stores the result;
- `Script.play` runs the steps of a function.
-/

namespace Crossing

instance : Holds Outcome where
  handles
    | .value v => v.handles
    | .answer _ => []

namespace Script

open Proc

/-! ## Steps on values -/

/-- Removes variables. -/
def forget : List String → Proc Unit
  | [] => pure ()
  | name :: names => do
    change (.forget name)
    forget names

/-- Looks at the arity of a value, if it is a function. -/
def inspectArity (v : Value) (counts : List Nat) : Answer :=
  match v with
  | .function c => .arity c.arity.isNullary (counts.map c.arity.accepts) c.name
  | _ => .nothing

/-- Runs steps and turns a failure into its class and its text. -/
def attempt (steps : List Step) (args : List Value) : Proc Value := do
  match ← outcome (Border.play steps args) with
  | .ok v => pure v
  | .error f => pure (.text (f.label ++ "|" ++ f.message))

/-- Goes on with a handle; anything else is no function of the host. -/
def withHandle {α : Type} (v : Value) (next : Handle → Proc α) : Proc α :=
  match v with
  | .handle h => next h
  | v => fail (.notClosure v.kind)

/-! ## Steps on the host -/

/-- The printed value of the symbol that a name stands for. -/
def hostValue (name : String) : Proc (Option String) := do
  let h ← heap
  let symbol ← query (.symbol? name)
  pure ((symbol.bind h.value?).map h.print)

/-- The text of the live buffer of a name. -/
def hostBuffer (name : String) : Proc (Option String) := do
  let h ← heap
  pure ((h.findBuffer? name).map h.bufferText)

/-- The text of the structural form of an object that the host keeps. -/
def hostForm (id : ObjectId) : Proc (Option String) := do
  let o ← Host.resolve id
  let j ← Host.structuralForm o
  pure (j.map Json.render)

/-- Keeps an object that a part makes. -/
def keep (part : Proc Obj) : Proc Answer := do
  let o ← part
  let id ← change (.retain o)
  pure (.reference id)

/-- Builds the object of the text of a datum. -/
def readObject (text : String) : Proc Obj := do
  let j ← Host.readDatum text
  Host.ofDatum j

/-- Lets time pass. What the sweepers that become due find to release is what
one sweep finds. -/
def advance (ms : Nat) : Proc Unit := do
  if ← change (.advance ms) then
    let _ ← change .sweep
    pure ()
  else pure ()

/-- Starts a periodic sweeper, unless there are to be no periodic sweeps. -/
def startSweeper : Proc Bool := do
  let config ← query .config
  match config.interval? with
  | some _ => do
    change .startSweeper
    pure true
  | none => pure false

/-- A text, or nothing. -/
def textOrNothing : Option String → Answer
  | some s => .text s
  | none => .nothing

/-! ## All steps -/

/-- What a part gives as the value of a step. -/
def giving (part : Proc Value) : Proc Outcome := do
  let v ← part
  pure (.value v)

/-- The handle that a part gives as the value of a step. -/
def givingHandle (part : Proc Handle) : Proc Outcome := do
  let h ← part
  pure (.value (.handle h))

/-- What a part gives as the report of a step. -/
def reporting (part : Proc Answer) : Proc Outcome := do
  let a ← part
  pure (.answer a)

/-- What a change gives as the report of a step. -/
def reportingChange {α : Type} (c : Change α) (report : α → Answer) : Proc Outcome := do
  let a ← change c
  pure (.answer (report a))

/-- What a query gives as the report of a step. -/
def reportingQuery {α : Type} (q : Query α) (report : α → Answer) : Proc Outcome := do
  let a ← query q
  pure (.answer (report a))

/-- Does what a step says, in a function with the given arguments. -/
def perform (args : List Value) : Deed → Proc Outcome
  | .value v => giving (operand args v)
  | .drop names => do
    forget names
    pure (.answer .nothing)
  | .same a b => do
    let a ← operand args a
    let b ← operand args b
    pure (.answer (.flag (a.same b)))
  | .inspect v => do
    let v ← operand args v
    pure (.answer (.inspection v.inspect))
  | .arity v counts => do
    let v ← operand args v
    pure (.answer (inspectArity v counts))
  | .raise message => fail (.exception message)
  | .attempt steps => giving (attempt steps args)
  | .call name os => do
    let vs ← operands args os
    giving (Border.call name vs)
  | .funcall f os => do
    let f ← operand args f
    let vs ← operands args os
    giving (withHandle f fun h => Border.funcall h vs)
  | .lookup name kind cached => givingHandle (Border.lookup name kind cached)
  | .materialize text => do
    let j ← ofExcept (Json.ofText text)
    givingHandle (Border.materialize j)
  | .form h => do
    let h ← operand args h
    let j ← withHandle h Border.structuralForm
    pure (.answer (.text j.render))
  | .wrap v => do
    let v ← operand args v
    givingHandle (Border.wrap v)
  | .unwrap key => giving (Border.unwrap key)
  | .pack v => do
    let v ← operand args v
    let (p, kept) ← Border.pack v
    pure (.answer (.packed p kept.length))
  | .unpack p => giving (Border.unpack p)
  | .config => reportingQuery .config .config
  | .invoke key ps => reporting (Answer.parcel <$> Border.invoke key ps)
  | .clearCallback key => reportingChange (.clearCallback key) fun _ => .nothing
  | .clearProxy key => reportingChange (.clearProxy key) fun _ => .nothing
  | .sweep => reportingChange .sweep .count
  | .evaluateSource source => reporting (Answer.parcel <$> Border.evaluateSource source)
  | .setEvaluator body => reportingChange (.setEvaluator body) fun _ => .nothing
  | .list os => do
    let vs ← operands args os
    giving (Border.list vs)
  | .quote v => do
    let v ← operand args v
    giving (Border.quote v)
  | .evaluate v => do
    let v ← operand args v
    giving (Border.evaluate v)
  | .define name f doc command => do
    let c ← makeFunction f
    givingHandle (Border.define name c doc command)
  | .bindVariables bindings f => do
    let vs ← operandFields args bindings
    let c ← makeFunction f
    giving (Border.bindVariables vs c)
  | .inBuffer buffer f => do
    let buffer ← operand args buffer
    let c ← makeFunction f
    giving (Border.inBuffer buffer c)
  | .inTemporaryBuffer f => do
    let c ← makeFunction f
    giving (Border.inTemporaryBuffer c)
  | .specialForm head os => do
    let vs ← operands args os
    giving (Border.specialForm head vs)
  | .vector os => do
    let vs ← operands args os
    giving (Border.vector vs)
  | .table entries => do
    let vs ← operandPairs args entries
    giving (Border.table vs)
  | .alist entries => do
    let vs ← operandPairs args entries
    giving (Border.alist vs)
  | .plist entries => do
    let vs ← operandFields args entries
    giving (Border.plist vs)
  | .hostText text => givingHandle (Border.materialize (.text text))
  | .stats => reportingQuery .stats .stats
  | .runSource source => do
    let o ← Host.evaluateText source
    reporting (Answer.object <$> Host.report o)
  | .hostValue name => reporting (textOrNothing <$> hostValue name)
  | .hostUnintern name => reportingChange (.unintern name) .flag
  | .hostBuffer name => reporting (textOrNothing <$> hostBuffer name)
  | .hostRetains id => reportingQuery (.resolve? id) fun o => .flag o.isSome
  | .hostBatches => reportingQuery .batches .batches
  | .hostRelease ids => reportingChange (.release ids) fun _ => .nothing
  | .hostForm id => reporting (textOrNothing <$> hostForm id)
  | .hostIntern name => reporting (keep (change (.intern name)))
  | .hostMaterialize text => reporting (keep (readObject text))
  | .hostMarker key => reporting (keep (Host.marker key))
  | .hostInvoke function ps => reporting (Answer.parcel <$> Host.invoke function ps)
  | .startSweeper => reporting (Answer.flag <$> startSweeper)
  | .advance ms => do
    advance ms
    reportingQuery .stats .stats

/-- The report of what came of a step. -/
def describe : Outcome → Proc Answer
  | .value v => Answer.value <$> Border.describe v
  | .answer a => pure a

/-- Logs what came of a step. -/
def log (r : Outcome) : Proc Unit := do
  let a ← describe r
  change (.log a)

/-- Stores what came of a step in a variable, if it is a script value. -/
def store (name : String) : Outcome → Proc Unit
  | .value v => change (.assign name v)
  | .answer _ => pure ()

/-- Runs a step, in a function with the given arguments. -/
def playStep (args : List Value) : Step → Proc Outcome
  | .mk deed target logged => do
    let r ← keeping (perform args deed)
    if logged then log r
    match target with
    | some name => store name r
    | none => pure ()
    pure r

/-! ## Functions -/

/-- A report as a script value: strings, numbers and flags stay, everything else
is null. -/
def valueOfAnswer : Answer → Value
  | .flag b => .bool b
  | .count n => .int (.ofNat n)
  | .reference id => .int (.ofNat id.val)
  | .text s => .text s
  | _ => .null

/-- What a function gives whose last step came to this. -/
def Outcome.toValue : Outcome → Value
  | .value v => v
  | .answer a => valueOfAnswer a

/-- Runs the steps of a function and gives the result of the last. The results
of the others are given up before the next step starts. -/
def play (args : List Value) : List Step → Proc Value
  | [] => pure .null
  | [s] => do
    let r ← Proc.perform (.step s args)
    pure (Outcome.toValue r)
  | s :: steps => do
    let _ ← holding (Proc.perform (.step s args))
    play args steps

end Script

end Crossing
