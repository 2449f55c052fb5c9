import Crossing.Border.Calls

/-!
# Forms

Special forms of the host cannot be applied like functions. Script code has the
host make the form, out of symbols and values, and then evaluate it. A list that
is put into a form would be evaluated too, so it is quoted first, unless it is
quoted already.

- `Border.closure` is the host closure that calls a script function;
- `Border.quoteIfList` quotes what would be evaluated as a call;
- `Border.specialForm`, `Border.define`, `Border.bindVariables`,
  `Border.inBuffer` and `Border.inTemporaryBuffer` build and evaluate forms.
-/

namespace Crossing

namespace Border

open Proc

/-! ## Parts of forms -/

/-- A list whose head is the symbol of a name. -/
def formOf (head : String) (args : List Value) : Proc Value := keeping do
  let h ← symbol head
  list (.handle h :: args)

def quote (v : Value) : Proc Value := formOf "quote" [v]

/-- Whether the host takes an object for a pair. -/
def isPair (v : Value) : Proc Bool := holding do
  let answer ← call "consp" [v]
  pure answer.isTruthy

/-- Whether the head of a pair is the symbol of quoting. -/
def isQuoted (v : Value) : Proc Bool := holding do
  let head ← call "car" [v]
  let h ← symbol "quote"
  pure (head.same (.handle h))

/-- Quotes a value if the host would evaluate it as a call. -/
def quoteIfList (v : Value) : Proc Value :=
  match v with
  | .object (_ :: _) => quote v
  | .handle _ => do
    if ← isPair v then
      if ← isQuoted v then pure v else quote v
    else pure v
  | v => pure v

/-! ## Script functions as host functions -/

/-- Registers a script function. -/
def register (c : Callable) : Proc Key := do
  match ← change (.register c) with
  | some key => pure key
  | none => fail (.registryFull "callback")

/-- Registers a script function, and makes the parameter list and the body of a
function that calls it with all its arguments. -/
def callingForm (c : Callable) : Proc (Value × Value) := keeping do
  let key ← register c
  let args ← symbol argumentsName
  let parameters ← formOf "&rest" [.handle args]
  let body ← formOf reenterName
    [.int (.ofNat key.index), .int (.ofNat key.generation), .handle args]
  pure (parameters, body)

/-- The host closure that calls a script function. -/
def closure (c : Callable) : Proc Handle := keeping do
  let form ← keeping do
    let (parameters, body) ← callingForm c
    formOf "lambda" [parameters, body]
  match ← evaluate form with
  | .handle h => pure h
  | v => fail (.notClosure v.kind)

/-- The declaration that a function is a command. -/
def commandForm : Command → Proc Value
  | .plain => formOf "interactive" []
  | .spec s => formOf "interactive" [.text s]

/-- Defines a host function that calls a script function, and gives its symbol. -/
def define (name : String) (c : Callable) (doc : Option String) (command : Option Command) :
    Proc Handle := keeping do
  let h ← symbol name
  let (parameters, body) ← callingForm c
  let head ← symbol "defun"
  let declaration ← match command with
    | some command => do
      let form ← commandForm command
      pure [form]
    | none => pure []
  let form ← list ([.handle head, .handle h, parameters] ++ (doc.map Value.text).toList ++
    declaration ++ [body])
  let _ ← evaluate form
  pure h

/-! ## Scopes -/

/-- Fails unless a function can be called without arguments. -/
def requireNullary (c : Callable) : Proc Unit :=
  match c.arity with
  | .exactly (n + 1) => fail (.arityMismatch none 0 (n + 1))
  | _ => pure ()

/-- Whether a function takes the values of `count` bindings; it may also take
none of them. -/
def takesBindings (arity : Arity) (count : Nat) : Except Failure Bool :=
  match arity with
  | .variadic => .ok true
  | .exactly 0 => .ok false
  | .exactly n => if n = count then .ok true else .error (.arityMismatch none count n)

/-- The symbols of some bindings and their forms. -/
def bindingForms : List (String × Value) → Proc (List (Value × Value))
  | [] => pure []
  | (name, v) :: bindings => do
    let h ← symbol name
    let form ← keeping do
      let v ← quoteIfList v
      list [.handle h, v]
    let rest ← bindingForms bindings
    pure ((.handle h, form) :: rest)

/-- Runs a script function while host variables are bound. It gets the values
unless it takes no arguments. -/
def bindVariables (bindings : List (String × Value)) (c : Callable) : Proc Value := keeping do
  let passes ← ofExcept (takesBindings c.arity bindings.length)
  let forms ← bindingForms bindings
  let head ← symbol "funcall"
  let quoted ← quote (.function c)
  let names := if passes then forms.map Prod.fst else []
  let form ← keeping do
    let letHead ← symbol "let"
    let bindingList ← list (forms.map Prod.snd)
    let body ← list (.handle head :: quoted :: names)
    list [.handle letHead, bindingList, body]
  evaluate form

/-- The form that calls a script function without arguments. -/
def callForm (c : Callable) : Proc Value := keeping do
  let head ← symbol "funcall"
  let quoted ← quote (.function c)
  list [.handle head, quoted]

/-- Runs a script function while a buffer is current. -/
def inBuffer (buffer : Value) (c : Callable) : Proc Value := keeping do
  requireNullary c
  let form ← keeping do
    let body ← callForm c
    let head ← symbol "with-current-buffer"
    let buffer ← quoteIfList buffer
    list [.handle head, buffer, body]
  evaluate form

/-- Runs a script function in a temporary buffer. -/
def inTemporaryBuffer (c : Callable) : Proc Value := keeping do
  requireNullary c
  let form ← keeping do
    let body ← callForm c
    let head ← symbol "with-temp-buffer"
    list [.handle head, body]
  evaluate form

/-! ## Any special form -/

/-- Evaluates a form, its list arguments being quoted. -/
def specialForm (name : String) (args : List Value) : Proc Value := keeping do
  let head ← symbol name
  let args ← args.mapM quoteIfList
  let form ← list (.handle head :: args)
  evaluate form

/-! ## Structures -/

/-- Puts entries into a table of the host. -/
def putEntries (table : Value) : List (Value × Value) → Proc Unit
  | [] => pure ()
  | (key, v) :: entries => do
    let _ ← holding (call "puthash" [key, v, table])
    putEntries table entries

/-- Has the host make a hash table with entries. -/
def table (entries : List (Value × Value)) : Proc Value := keeping do
  let table ← keeping do
    let test ← keyword "test"
    let equal ← symbol "equal"
    call "make-hash-table" [.handle test, .handle equal]
  putEntries table entries
  pure table

/-- Has the host make a list of pairs. -/
def alist (entries : List (Value × Value)) : Proc Value := keeping do
  let pairs ← entries.mapM fun e => call "cons" [e.1, e.2]
  list pairs

/-- Keywords and values in turn. -/
def keyed : List (String × Value) → Proc (List Value)
  | [] => pure []
  | (name, v) :: entries => do
    let h ← keyword name
    let rest ← keyed entries
    pure (.handle h :: v :: rest)

/-- Has the host make a list of keywords and values. -/
def plist (entries : List (String × Value)) : Proc Value := keeping do
  let items ← keyed entries
  list items

/-- Has the host make a vector. -/
def vector (items : List Value) : Proc Value := call "vector" items

end Border

end Crossing
