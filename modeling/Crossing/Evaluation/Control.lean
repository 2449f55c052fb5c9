import Crossing.Evaluation.Closure
import Crossing.Evaluation.Exchange

/-!
# Control

The special forms that decide what is evaluated, and the steps that every
evaluation is made of.

- `Host.evaluate` and `Host.apply` are the recursive steps;
- `Host.sequence` evaluates forms one after the other;
- `Host.unwindProtect` runs its cleanup forms however its body ends.
-/

namespace Crossing

namespace Host

open Proc

/-! ## Evaluating parts -/

def evaluate (form : Obj) : Proc Obj := perform (.evaluate form)

def apply (function : Obj) (args : List Obj) : Proc Obj := perform (.apply function args)

/-- Evaluates forms one after the other and gives the value of the last. -/
def sequence (forms : List Obj) : Proc Obj := forms.foldlM (fun _ form => evaluate form) .nil

/-- The closure of what follows the word `lambda`. -/
def makeClosure (forms : List Obj) : Proc Obj := do
  let h ← heap
  let l ← check (Lambda.ofForms h forms)
  make (.closure l)

/-- Fails because a special form has a wrong number of arguments. -/
def wrongForm {α : Type} (name : String) : Proc α := signal (.wrongForm name)

/-! ## Constants and functions -/

/-- The argument as it is. -/
def quote (args : List Obj) : Proc Obj :=
  match args with
  | [o] => pure o
  | _ => wrongForm "quote"

/-- The closure of a lambda list, anything else as it is. -/
def function (args : List Obj) : Proc Obj :=
  match args with
  | [o] => do
    let h ← heap
    if h.isLambda o then makeClosure (h.lambdaForms o) else pure o
  | _ => wrongForm "function"

/-- Sets the function of a symbol. -/
def defun (args : List Obj) : Proc Obj :=
  match args with
  | [] => wrongForm "defun"
  | name :: forms => do
    let h ← heap
    let a ← check (h.asSymbol name)
    let closure ← makeClosure forms
    change (.setFunction a closure)
    pure name

/-! ## Control -/

def cond (args : List Obj) : Proc Obj :=
  match args with
  | condition :: consequence :: alternative => do
    let o ← evaluate condition
    if o.isNil then sequence alternative else evaluate consequence
  | _ => wrongForm "if"

/-- Evaluates forms up to the first that is `nil`, and gives the last value. -/
def conjunction : List Obj → (last : Obj) → Proc Obj
  | [], last => pure last
  | form :: forms, _ => do
    let o ← evaluate form
    if o.isNil then pure o else conjunction forms o

/-- Evaluates forms up to the first that is not `nil`, and gives its value. -/
def disjunction : List Obj → Proc Obj
  | [] => pure .nil
  | form :: forms => do
    let o ← evaluate form
    if o.isNil then disjunction forms else pure o

/-- Evaluates a body for as long as a condition is not `nil`. -/
def loop (args : List Obj) : Proc Obj :=
  match args with
  | [] => wrongForm "while"
  | condition :: body => do
    repeating do
      let o ← evaluate condition
      if o.isNil then pure false
      else do
        let _ ← sequence body
        pure true
    pure .nil

/-- Evaluates a body and then, however that ended, the cleanup forms. -/
def unwindProtect (args : List Obj) : Proc Obj :=
  match args with
  | [] => wrongForm "unwind-protect"
  | body :: cleanup => do
    let result ← outcome (evaluate body)
    let _ ← sequence cleanup
    ofExcept result

end Host

end Crossing
