/-!
# Builtin functions

The names of the functions that every interpreter starts with. What they do is
said in the modules under `Crossing.Evaluation`.
-/

namespace Crossing

/-- A builtin function. -/
inductive Builtin where
  | list
  | cons
  | car
  | cdr
  | setCar
  | nth
  | length
  | reverse
  | plistGet
  | isCons
  | isList
  | isNull
  | not
  | isText
  | isNumber
  | isInteger
  | isSymbol
  | isVector
  | isBuffer
  | isTable
  | isFunction
  | eq
  | equal
  | identity
  | ignore
  | add
  | multiply
  | subtract
  | divide
  | increment
  | numEq
  | less
  | greater
  | lessEq
  | greaterEq
  | concat
  | vector
  | makeVector
  | aref
  | aset
  | intern
  | unintern
  | symbolName
  | symbolValue
  | symbolFunction
  | isBound
  | hasFunction
  | setValue
  | setFunction
  | funcall
  | apply
  | evaluate
  | error
  | signal
  | documentation
  | isCommand
  | makeTable
  | makeKeymap
  | putEntry
  | getEntry
  | countEntries
  | defineKey
  | lookupKey
  | currentBuffer
  | bufferName
  | getBuffer
  | createBuffer
  | selectBuffer
  | killBuffer
  | insert
  | bufferText
  | reenter
  | clearCallback
  | clearProxy
  | collect
  | evaluateScript
  | recursiveEdit
deriving DecidableEq, Repr

namespace Builtin

/-- The symbol that a builtin is the function of. -/
def name : Builtin → String
  | .list => "list"
  | .cons => "cons"
  | .car => "car"
  | .cdr => "cdr"
  | .setCar => "setcar"
  | .nth => "nth"
  | .length => "length"
  | .reverse => "reverse"
  | .plistGet => "plist-get"
  | .isCons => "consp"
  | .isList => "listp"
  | .isNull => "null"
  | .not => "not"
  | .isText => "stringp"
  | .isNumber => "numberp"
  | .isInteger => "integerp"
  | .isSymbol => "symbolp"
  | .isVector => "vectorp"
  | .isBuffer => "bufferp"
  | .isTable => "hash-table-p"
  | .isFunction => "functionp"
  | .eq => "eq"
  | .equal => "equal"
  | .identity => "identity"
  | .ignore => "ignore"
  | .add => "+"
  | .multiply => "*"
  | .subtract => "-"
  | .divide => "/"
  | .increment => "1+"
  | .numEq => "="
  | .less => "<"
  | .greater => ">"
  | .lessEq => "<="
  | .greaterEq => ">="
  | .concat => "concat"
  | .vector => "vector"
  | .makeVector => "make-vector"
  | .aref => "aref"
  | .aset => "aset"
  | .intern => "intern"
  | .unintern => "unintern"
  | .symbolName => "symbol-name"
  | .symbolValue => "symbol-value"
  | .symbolFunction => "symbol-function"
  | .isBound => "boundp"
  | .hasFunction => "fboundp"
  | .setValue => "set"
  | .setFunction => "fset"
  | .funcall => "funcall"
  | .apply => "apply"
  | .evaluate => "eval"
  | .error => "error"
  | .signal => "signal"
  | .documentation => "documentation"
  | .isCommand => "commandp"
  | .makeTable => "make-hash-table"
  | .makeKeymap => "make-sparse-keymap"
  | .putEntry => "puthash"
  | .getEntry => "gethash"
  | .countEntries => "hash-table-count"
  | .defineKey => "define-key"
  | .lookupKey => "lookup-key"
  | .currentBuffer => "current-buffer"
  | .bufferName => "buffer-name"
  | .getBuffer => "get-buffer"
  | .createBuffer => "get-buffer-create"
  | .selectBuffer => "set-buffer"
  | .killBuffer => "kill-buffer"
  | .insert => "insert"
  | .bufferText => "buffer-string"
  | .reenter => "bridge--reenter"
  | .clearCallback => "bridge--clear"
  | .clearProxy => "bridge--clear-proxy"
  | .collect => "garbage-collect"
  | .evaluateScript => "eval-js"
  | .recursiveEdit => "recursive-edit"

/-- Every builtin. -/
def all : List Builtin := [
  .list, .cons, .car, .cdr, .setCar, .nth, .length, .reverse, .plistGet, .isCons, .isList,
  .isNull, .not, .isText, .isNumber, .isInteger, .isSymbol, .isVector, .isBuffer, .isTable,
  .isFunction, .eq, .equal, .identity, .ignore, .add, .multiply, .subtract, .divide, .increment,
  .numEq, .less, .greater, .lessEq, .greaterEq, .concat, .vector, .makeVector, .aref, .aset,
  .intern, .unintern, .symbolName, .symbolValue, .symbolFunction, .isBound, .hasFunction,
  .setValue, .setFunction, .funcall, .apply, .evaluate, .error, .signal, .documentation,
  .isCommand, .makeTable, .makeKeymap, .putEntry, .getEntry, .countEntries, .defineKey,
  .lookupKey, .currentBuffer, .bufferName, .getBuffer, .createBuffer, .selectBuffer, .killBuffer,
  .insert, .bufferText, .reenter, .clearCallback, .clearProxy, .collect, .evaluateScript,
  .recursiveEdit]

theorem mem_all (b : Builtin) : b ∈ all := by
  cases b <;> decide

end Builtin

end Crossing
