/-!
# Special forms

The forms whose arguments are not evaluated first. A list is a special form if
its head is a symbol of the right name, whichever symbol that is.
-/

namespace Crossing

/-- A form with its own rule of evaluation. -/
inductive SpecialForm where
  | quote
  | function
  | lambda
  | progn
  | cond
  | and
  | or
  | while
  | setq
  | defvar
  | defun
  | letParallel
  | letSequential
  | unwindProtect
  | withBuffer
  | withTemporaryBuffer
  | interactive
  | minorMode
  | derivedMode
deriving DecidableEq, Repr

namespace SpecialForm

/-- The name that a special form is recognised by. -/
def name : SpecialForm → String
  | .quote => "quote"
  | .function => "function"
  | .lambda => "lambda"
  | .progn => "progn"
  | .cond => "if"
  | .and => "and"
  | .or => "or"
  | .while => "while"
  | .setq => "setq"
  | .defvar => "defvar"
  | .defun => "defun"
  | .letParallel => "let"
  | .letSequential => "let*"
  | .unwindProtect => "unwind-protect"
  | .withBuffer => "with-current-buffer"
  | .withTemporaryBuffer => "with-temp-buffer"
  | .interactive => "interactive"
  | .minorMode => "define-minor-mode"
  | .derivedMode => "define-derived-mode"

def all : List SpecialForm := [
  .quote, .function, .lambda, .progn, .cond, .and, .or, .while, .setq, .defvar, .defun,
  .letParallel, .letSequential, .unwindProtect, .withBuffer, .withTemporaryBuffer, .interactive,
  .minorMode, .derivedMode]

/-- The special form of a name. -/
def ofName? (name : String) : Option SpecialForm := all.find? fun f => f.name == name

end SpecialForm

end Crossing
