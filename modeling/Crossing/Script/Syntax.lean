import Crossing.Naming
import Crossing.Parcel

/-!
# Script programs

The language that script code is written in: steps that act on the crossing,
and operands that stand for values. A function is a list of steps; it runs them
in order and gives the result of the last one.

- `Operand`, `FunctionForm`, `Deed` and `Step` are the syntax;
- `Arity.accepts` says how many arguments a function takes.
-/

namespace Crossing

/-- How many arguments a script function takes. -/
inductive Arity where
  | exactly (n : Nat)
  | variadic
deriving DecidableEq, Repr

namespace Arity

def accepts : Arity → Nat → Bool
  | .exactly n, count => n == count
  | .variadic, _ => true

/-- Whether a call without arguments is accepted. -/
def isNullary (a : Arity) : Bool := a.accepts 0

theorem accepts_exactly_iff {n count : Nat} :
    (exactly n).accepts count = true ↔ n = count := by
  simp [accepts]

end Arity

/-- How a function defined for the host is a command. -/
inductive Command where
  | plain
  | spec (s : String)
deriving DecidableEq, Repr

mutual

/-- What stands for a value in a step. -/
inductive Operand where
  | null
  | bool (b : Bool)
  | int (i : Fixnum)
  | float (x : Float)
  | text (s : String)
  | list (items : List Operand)
  | object (fields : List (String × Operand))
  /-- The value of a variable. -/
  | variable (name : String)
  /-- An argument of the running function, by its place. -/
  | argument (place : Nat)
  /-- All arguments of the running function. -/
  | arguments
  /-- A native object, one for each name. -/
  | native (name : String)
  /-- The handle of a symbol, looked up now. -/
  | symbol (name : String)
  /-- The handle of a keyword, looked up now. -/
  | keyword (name : String)
  /-- A new function. -/
  | function (f : FunctionForm)

/-- A function as written. -/
inductive FunctionForm where
  | mk (arity : Arity) (name : Option String) (body : List Step)

/-- What a step does. -/
inductive Deed where
  /-- Gives a value. -/
  | value (v : Operand)
  /-- Removes variables. -/
  | drop (names : List String)
  /-- Compares identities. -/
  | same (a b : Operand)
  /-- Looks at a value from all sides. -/
  | inspect (v : Operand)
  /-- Looks at the arity of a function. -/
  | arity (v : Operand) (counts : List Nat)
  /-- Raises an exception. -/
  | raise (message : String)
  /-- Runs steps and turns a failure into its text. -/
  | attempt (steps : List Step)
  /-- Calls a host function by name. -/
  | call (name : String) (args : List Operand)
  /-- Applies a host function. -/
  | funcall (f : Operand) (args : List Operand)
  /-- Looks up a symbol, from memory if `cached`. -/
  | lookup (name : String) (kind : SymbolKind) (cached : Bool)
  /-- Builds a host object from the text of a datum. -/
  | materialize (json : String)
  /-- Gives the structural form of a host object. -/
  | form (h : Operand)
  /-- Wraps a value for the host. -/
  | wrap (v : Operand)
  | unwrap (key : Key)
  /-- Prepares a value for crossing. -/
  | pack (v : Operand)
  /-- Takes in what crossed. -/
  | unpack (p : Parcel)
  | config
  /-- Runs a registered function as the host would. -/
  | invoke (key : Key) (args : List Parcel)
  | clearCallback (key : Key)
  | clearProxy (key : Key)
  /-- Releases what is no longer held. -/
  | sweep
  /-- Evaluates script source as the host would. -/
  | evaluateSource (source : String)
  /-- Sets what evaluates script source; nothing stands for literals. -/
  | setEvaluator (body : Option (List Step))
  | list (args : List Operand)
  | quote (v : Operand)
  | evaluate (v : Operand)
  /-- Defines a host function. -/
  | define (name : String) (f : FunctionForm) (doc : Option String) (command : Option Command)
  /-- Runs a function while host variables are bound. -/
  | bindVariables (bindings : List (String × Operand)) (f : FunctionForm)
  | inBuffer (buffer : Operand) (f : FunctionForm)
  | inTemporaryBuffer (f : FunctionForm)
  /-- Evaluates a special form. -/
  | specialForm (head : String) (args : List Operand)
  | vector (args : List Operand)
  | table (entries : List (Operand × Operand))
  | alist (entries : List (Operand × Operand))
  | plist (entries : List (String × Operand))
  /-- Builds a host string. -/
  | hostText (text : String)
  | stats
  /-- Evaluates source of the host. -/
  | runSource (source : String)
  | hostValue (name : String)
  | hostUnintern (name : String)
  | hostBuffer (name : String)
  | hostRetains (id : ObjectId)
  | hostBatches
  | hostRelease (ids : List ObjectId)
  | hostForm (id : ObjectId)
  | hostIntern (name : String)
  | hostMaterialize (json : String)
  | hostMarker (key : Key)
  | hostInvoke (function : ObjectId) (args : List Parcel)
  /-- Starts a periodic sweeper. -/
  | startSweeper
  /-- Lets time pass. -/
  | advance (ms : Nat)

/-- A deed, the variable that takes its value, and whether it is logged. -/
inductive Step where
  | mk (deed : Deed) (store : Option String) (logged : Bool)

end

namespace FunctionForm

def arity : FunctionForm → Arity
  | .mk arity _ _ => arity

def name : FunctionForm → Option String
  | .mk _ name _ => name

def body : FunctionForm → List Step
  | .mk _ _ body => body

end FunctionForm

end Crossing
