import Crossing.Json.Reading
import Crossing.Number.Layout
import Crossing.Parcel
import Crossing.Source.Token
import Crossing.Text.Quoted

/-!
# Failures

Everything that can go wrong, by cause. A failure raised anywhere passes
through every frame of both runtimes as it is.

- `Signal` lists the errors of the host, each with the symbol it is signalled
  under and its text;
- `Failure` adds those of the crossing and of script code;
- `Failure.message` words them, `Failure.label` names their class.
-/

namespace Crossing

/-! ## Errors of the host -/

/-- How deep evaluations of the host may nest. -/
def maxDepth : Nat := 200

/-- An error that the host signals. -/
inductive Signal where
  | nestingTooDeep
  | voidVariable (name : String)
  | voidFunction (name : String)
  | invalidFunction (printed : String)
  | missingParameters
  | badParameter (printed : String)
  /-- A special form with a wrong number of arguments. -/
  | wrongForm (name : String)
  /-- A builtin called with `count` arguments, which it does not take. -/
  | wrongCount (name : String) (count : Nat)
  /-- A closure called with a number of arguments outside its range. -/
  | wrongRange (least most given : Nat)
  | wrongType (predicate printed : String)
  | badBinding (printed : String)
  | settingConstant
  | deletedBuffer
  | noSuchBuffer (name : String)
  | missingFormatArgument
  | overflow (printed : String)
  | divisionByZero
  | outOfRange (printed : String)
  /-- An error that a program words itself. -/
  | user (message : String)
  /-- An error that a program signals under a symbol of its own. -/
  | custom (symbol message : String)
  | badSyntax (e : ReadError)
  | badData (fault : Json.Fault)
  | unknownReference (id : ObjectId)
deriving DecidableEq, Repr

namespace Signal

/-- The symbol that the error is signalled under. -/
def symbol : Signal → String
  | .nestingTooDeep => "excessive-lisp-nesting"
  | .voidVariable _ => "void-variable"
  | .voidFunction _ => "void-function"
  | .invalidFunction _ => "invalid-function"
  | .missingParameters => "invalid-function"
  | .badParameter _ => "invalid-function"
  | .wrongForm _ => "wrong-number-of-arguments"
  | .wrongCount .. => "wrong-number-of-arguments"
  | .wrongRange .. => "wrong-number-of-arguments"
  | .wrongType .. => "wrong-type-argument"
  | .badBinding _ => "wrong-type-argument"
  | .settingConstant => "setting-constant"
  | .deletedBuffer => "error"
  | .noSuchBuffer _ => "error"
  | .missingFormatArgument => "error"
  | .overflow _ => "overflow-error"
  | .divisionByZero => "arith-error"
  | .outOfRange _ => "args-out-of-range"
  | .user _ => "error"
  | .custom symbol _ => symbol
  | .badSyntax _ => "invalid-read-syntax"
  | .badData _ => "json-parse-error"
  | .unknownReference _ => "invalid-reference"

/-- The text of the error. -/
def message : Signal → String
  | .nestingTooDeep => natText maxDepth
  | .voidVariable name => name
  | .voidFunction name => name
  | .invalidFunction printed => printed
  | .missingParameters => "lambda without parameter list"
  | .badParameter printed => "bad parameter " ++ printed
  | .wrongForm name => name
  | .wrongCount name count => name ++ " " ++ natText count
  | .wrongRange least most given =>
    "expected " ++ natText least ++ ".." ++ natText most ++ ", got " ++ natText given
  | .wrongType predicate printed => predicate ++ " " ++ printed
  | .badBinding printed => printed
  | .settingConstant => "nil"
  | .deletedBuffer => "Selecting deleted buffer"
  | .noSuchBuffer name => "No such buffer " ++ name
  | .missingFormatArgument => "Not enough arguments for format string"
  | .overflow printed => printed
  | .divisionByZero => "division by zero"
  | .outOfRange printed => printed
  | .user message => message
  | .custom _ message => message
  | .badSyntax e => e.message
  | .badData fault => fault.message
  | .unknownReference id => id.text

end Signal

/-! ## All failures -/

/-- What kind of value a script value is. -/
inductive Kind where
  | null
  | boolean
  | integer
  | float
  | string
  | list
  | object
  | handle
  | function
  | native
deriving DecidableEq, Repr

def Kind.word : Kind → String
  | .null => "null"
  | .boolean => "boolean"
  | .integer => "integer"
  | .float => "float"
  | .string => "string"
  | .list => "array"
  | .object => "object"
  | .handle => "handle"
  | .function => "function"
  | .native => "opaque object"

/-- Why an operation fails. -/
inductive Failure where
  /-- The host signalled an error. -/
  | signal (s : Signal)
  /-- Script code raised an exception. -/
  | exception (message : String)
  /-- Source of literals that does not read. -/
  | badLiteral (fault : Json.Fault)
  | invalidCallback (key : Key)
  | invalidProxy (key : Key)
  /-- A registry has no index left for a value of the given kind. -/
  | registryFull (what : String)
  /-- A script function, called back or to be used in a form, that does not take
  the arguments it gets. -/
  | arityMismatch (callback : Option Key) (expected actual : Nat)
  /-- The host operation is reserved. -/
  | forbidden (name : String)
  /-- Source may not be evaluated while script code runs. -/
  | nestedSource
  /-- A float that is not finite has no data form. -/
  | notFinite (x : Float)
  /-- A value with identity inside of data. -/
  | embedded (kind : Kind)
  /-- The host ends its strings by a NUL. -/
  | containsNul
  /-- A native object has to be wrapped first. -/
  | unwrapped
  /-- Data from the host that does not read. -/
  | malformed (fault : Json.Fault) (text : String)
  /-- The form of a closure evaluated to something else. -/
  | notClosure (kind : Kind)

namespace Failure

def encodingMessage (what : String) : String := "Encoding error: " ++ what

def decodingMessage (what : String) : String := "Decoding error: " ++ what

def forbiddenMessage (what : String) : String :=
  "Attempting to call non-supported function via script invocation (" ++ what ++ ")"

/-- The wording of a failure. -/
def message : Failure → String
  | .signal s => "Host error (" ++ s.symbol ++ "): " ++ s.message
  | .exception message => message
  | .badLiteral fault => "SyntaxError: " ++ fault.message
  | .invalidCallback key => "Invalid callback: " ++ key.text
  | .invalidProxy key => "Invalid reverse proxy: " ++ key.text
  | .registryFull what => "No free " ++ what ++ " slots left"
  | .arityMismatch callback expected actual =>
    "Arity mismatch" ++ (match callback with
      | some key => " in callback " ++ key.text
      | none => "") ++
    ": expected " ++ natText expected ++ " argument(s), got " ++ natText actual
  | .forbidden name => forbiddenMessage name
  | .nestedSource => forbiddenMessage "evaluate_literal while script code is running"
  | .notFinite x => encodingMessage (plainText x ++ " has no wire representation")
  | .embedded kind => encodingMessage (kind.word ++ " cannot be embedded in structured data")
  | .containsNul => encodingMessage "string contains an embedded NUL byte"
  | .unwrapped =>
    encodingMessage "opaque script objects must be wrapped before crossing to the host"
  | .malformed fault text => decodingMessage (fault.message ++ ": " ++ quoted text)
  | .notClosure kind => decodingMessage ("closure form evaluated to " ++ kind.word)

/-- The class of a failure, as script code sees it. -/
def label : Failure → String
  | .signal _ => "Host"
  | .exception _ => "Exception"
  | .badLiteral _ => "Exception"
  | .invalidCallback _ => "InvalidCallback"
  | .invalidProxy _ => "InvalidReverseProxy"
  | .registryFull _ => "RegistryFull"
  | .arityMismatch .. => "ArityMismatch"
  | .forbidden _ => "ForbiddenOperation"
  | .nestedSource => "ForbiddenOperation"
  | .notFinite _ => "Encoding"
  | .embedded _ => "Encoding"
  | .containsNul => "Encoding"
  | .unwrapped => "Encoding"
  | .malformed .. => "Decoding"
  | .notClosure _ => "Decoding"

end Failure

end Crossing
