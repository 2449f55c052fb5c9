import Crossing.Evaluation.Control

/-!
# Modes

The special forms that define modes. Both build the lambda list of a command
and make it the function of the mode's name.
-/

namespace Crossing

namespace Host

open Proc

/-- A list whose head is the symbol of a name. -/
def formOf (name : String) (args : List Obj) : Proc Obj := do
  let head ← change (.intern name)
  list (head :: args)

/-- Defines a variable and a command that inverts it and then runs a body. -/
def minorMode (args : List Obj) : Proc Obj :=
  match args with
  | [] => wrongForm "define-minor-mode"
  | name :: rest => do
    let h ← heap
    let a ← check (h.asSymbol name)
    let (doc, body) := match rest with
      | o :: body => if (h.text? o).isSome then ([o], body) else ([], rest)
      | [] => ([], [])
    if (h.value? a).isNone then change (.setValue a .nil)
    let inverse ← formOf "not" [name]
    let toggle ← formOf "setq" [name, inverse]
    let command ← formOf "interactive" []
    let closure ← makeClosure (.nil :: doc ++ [command, toggle] ++ body ++ [name])
    change (.setFunction a closure)
    pure name

/-- Defines a command that sets the mode, after its parent's command if there
is one, and then runs a body. -/
def derivedMode (args : List Obj) : Proc Obj :=
  match args with
  | child :: parent :: modeName :: rest => do
    let h ← heap
    let a ← check (h.asSymbol child)
    let body := match rest with
      | o :: body => if (h.text? o).isSome then body else rest
      | [] => []
    let command ← formOf "interactive" []
    let inherit ← if (h.symbol? parent).isSome then do
        let quoted ← formOf "quote" [parent]
        let test ← formOf "fboundp" [quoted]
        let call ← list [parent]
        let form ← formOf "if" [test, call]
        pure [form]
      else pure []
    let mode ← change (.intern "major-mode")
    let quoted ← formOf "quote" [child]
    let nameOfMode ← change (.intern "mode-name")
    let settings ← formOf "setq" [mode, quoted, nameOfMode, modeName]
    let closure ← makeClosure (.nil :: command :: inherit ++ [settings] ++ body)
    change (.setFunction a closure)
    pure child
  | _ => wrongForm "define-derived-mode"

end Host

end Crossing
