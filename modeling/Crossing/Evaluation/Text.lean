import Crossing.Evaluation.Control
import Crossing.Source.Form

/-!
# Evaluation of source text

The objects of source text, and their evaluation one after the other. All forms
are read before the first one is evaluated.
-/

namespace Crossing

namespace Host

open Proc

mutual

/-- Builds the object of a form. -/
def ofForm : Form → Proc Obj
  | .int i => pure (.int i)
  | .float x => pure (.float x)
  | .text s => ofText s
  | .symbol name => change (.intern name)
  | .list items => do
    let objects ← ofForms items
    list objects
  | .dotted items last => do
    let objects ← ofForms items
    let last ← ofForm last
    dotted objects last
  | .vector items => do
    let objects ← ofForms items
    make (.vector objects)

/-- Builds the objects of some forms. -/
def ofForms : List Form → Proc (List Obj)
  | [] => pure []
  | f :: fs => do
    let o ← ofForm f
    let objects ← ofForms fs
    pure (o :: objects)

end

/-- Interns names, one after the other. -/
def internAll : List String → Proc Unit
  | [] => pure ()
  | name :: names => do
    let _ ← change (.intern name)
    internAll names

/-- Builds the objects of source text. Symbols that are named before an error
are interned all the same. -/
def read (source : String) : Proc (List Obj) := do
  match Form.readAll source with
  | .ok forms => ofForms forms
  | .error halt => do
    internAll halt.named
    signal (.badSyntax halt.error)

/-- Evaluates source text and gives the value of the last form. -/
def evaluateText (source : String) : Proc Obj := do
  let forms ← read source
  sequence forms

end Host

end Crossing
