import Crossing.Evaluation.Modes
import Crossing.Evaluation.SpecialForm
import Crossing.Evaluation.Variables

/-!
# Evaluation

How the host evaluates a form. A symbol stands for its value, a list is a
special form or the application of a function to the values of its arguments,
and everything else stands for itself.

- `SpecialForm.run` says what each special form does;
- `Host.evaluation` evaluates a form, within a limit on nesting;
- `Host.functionOf` is the function that the head of a list names.
-/

namespace Crossing

/-- Evaluates a special form with the given arguments. -/
def SpecialForm.run (f : SpecialForm) (args : List Obj) : Proc Obj :=
  match f with
  | .quote => Host.quote args
  | .function => Host.function args
  | .lambda => Host.makeClosure args
  | .progn => Host.sequence args
  | .cond => Host.cond args
  | .and => do
    let t ← Host.truth
    Host.conjunction args t
  | .or => Host.disjunction args
  | .while => Host.loop args
  | .setq => Host.setq args
  | .defvar => Host.defvar args
  | .defun => Host.defun args
  | .letParallel => Host.letForm false args
  | .letSequential => Host.letForm true args
  | .unwindProtect => Host.unwindProtect args
  | .withBuffer => Host.withBuffer args
  | .withTemporaryBuffer => Host.withTemporaryBuffer args
  | .interactive => pure .nil
  | .minorMode => Host.minorMode args
  | .derivedMode => Host.derivedMode args

namespace Host

open Proc

/-- The function that an object names: the function of a symbol, the closure of
a lambda list, and anything else itself. -/
def functionOf (o : Obj) : Proc Obj := do
  let h ← heap
  match h.shape o with
  | .cell (.symbol name _ function) => match function with
    | some f => pure f
    | none => signal (.voidFunction name)
  | .cell (.cons _ _) => if h.isLambda o then makeClosure (h.lambdaForms o) else pure o
  | _ => pure o

/-- The special form that a list is, going by its head. -/
def specialForm? (h : Heap) (head : Obj) : Option SpecialForm :=
  (h.symbolName? head).bind SpecialForm.ofName?

/-- Evaluates a list. -/
def evaluateList (head tail form : Obj) : Proc Obj := do
  let h ← heap
  match h.list? tail with
  | none => signal (.invalidFunction (h.print form))
  | some args => match specialForm? h head with
    | some f => f.run args
    | none => do
      let f ← functionOf head
      let values ← args.mapM evaluate
      apply f values

/-- The value of a form. -/
def valueOf (form : Obj) : Proc Obj := do
  let h ← heap
  match h.shape form with
  | .cell (.symbol name value _) =>
    if isKeywordName name then pure form
    else match value with
      | some o => pure o
      | none => signal (.voidVariable name)
  | .cell (.cons head tail) => evaluateList head tail form
  | _ => pure form

/-- Evaluates a form as one more evaluation in progress. -/
def evaluation (form : Obj) : Proc Obj := within .evaluation (valueOf form)

/-! ## Closures -/

/-- Runs the body of a closure while its parameters are bound. -/
def callClosure (l : Lambda) (args : List Obj) : Proc Obj :=
  if l.accepts args.length then do
    let rest ← match l.rest with
      | some a => do
        let items ← list (args.drop l.most)
        pure [(a, items)]
      | none => pure []
    within (.binding (l.bindings args ++ rest)) (sequence l.body)
  else signal (.wrongRange l.required.length l.most args.length)

end Host

end Crossing
