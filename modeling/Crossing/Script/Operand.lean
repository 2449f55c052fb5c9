import Crossing.Border.Symbols

/-!
# Operands

What the operands of a step stand for when the step runs, from left to right.
A variable without a value and an argument that was not given stand for null.
-/

namespace Crossing

namespace Script

open Proc

/-- Makes a function of what is written. -/
def makeFunction (f : FunctionForm) : Proc Callable := do
  let identity ← change .newIdentity
  pure ⟨identity, f.arity, f.name, f.body⟩

mutual

/-- The value of an operand in a function with the given arguments. -/
def operand (args : List Value) : Operand → Proc Value
  | .null => pure .null
  | .bool b => pure (.bool b)
  | .int i => pure (.int i)
  | .float x => pure (.float x)
  | .text s => pure (.text s)
  | .list items => do
    let vs ← operands args items
    pure (.list vs)
  | .object fields => do
    let vs ← operandFields args fields
    pure (.object vs)
  | .variable name => do
    let v ← change (.recallVariable name)
    pure (v.getD .null)
  | .argument place => pure (args.getD place .null)
  | .arguments => pure (.list args)
  | .native name => pure (.native name)
  | .symbol name => do
    let h ← Border.symbol name
    pure (.handle h)
  | .keyword name => do
    let h ← Border.keyword name
    pure (.handle h)
  | .function f => do
    let c ← makeFunction f
    pure (.function c)

/-- The values of some operands. -/
def operands (args : List Value) : List Operand → Proc (List Value)
  | [] => pure []
  | o :: os => do
    let v ← operand args o
    let vs ← operands args os
    pure (v :: vs)

/-- The values of some fields. -/
def operandFields (args : List Value) : List (String × Operand) → Proc (List (String × Value))
  | [] => pure []
  | (k, o) :: fields => do
    let v ← operand args o
    let vs ← operandFields args fields
    pure ((k, v) :: vs)

end

/-- The values of pairs of operands. -/
def operandPairs (args : List Value) : List (Operand × Operand) → Proc (List (Value × Value))
  | [] => pure []
  | (a, b) :: pairs => do
    let a ← operand args a
    let b ← operand args b
    let vs ← operandPairs args pairs
    pure ((a, b) :: vs)

end Script

end Crossing
