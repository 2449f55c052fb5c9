import Crossing.Border.Callbacks
import Crossing.Evaluation.Arithmetic
import Crossing.Evaluation.Buffers
import Crossing.Evaluation.Control
import Crossing.Evaluation.Sequences
import Crossing.Evaluation.Symbols
import Crossing.Evaluation.Tables

/-!
# Builtin functions at work

How many arguments each builtin takes and what it does with them. Among them
are the host's ends of the exchange: to run a registered script function, to
clear keys, to sweep, and to evaluate script source.

- `Builtin.accepts` checks the number of arguments;
- `Builtin.run` applies a builtin.
-/

namespace Crossing

/-! ## Numbers of arguments -/

namespace Builtin

/-- The least number of arguments, and the most if there is a limit. -/
def range : Builtin → Nat × Option Nat
  | .isCons | .isList | .isNull | .not | .isText | .isNumber | .isInteger | .isSymbol
  | .isVector | .isBuffer | .isTable | .isFunction => (1, some 1)
  | .car | .cdr | .length | .reverse | .increment | .intern | .symbolName | .symbolValue
  | .symbolFunction | .isBound | .hasFunction | .countEntries | .getBuffer | .createBuffer
  | .selectBuffer | .evaluateScript => (1, some 1)
  | .unintern | .evaluate | .documentation | .isCommand => (1, some 2)
  | .numEq | .less | .greater | .lessEq | .greaterEq | .divide | .funcall | .error => (1, none)
  | .eq | .equal | .cons | .setCar | .nth | .plistGet | .makeVector | .aref | .setValue
  | .setFunction | .signal | .lookupKey | .clearCallback | .clearProxy => (2, some 2)
  | .getEntry => (2, some 3)
  | .apply => (2, none)
  | .aset | .putEntry | .defineKey | .reenter => (3, some 3)
  | .bufferName => (0, some 1)
  | .list | .identity | .ignore | .add | .multiply | .subtract | .concat | .vector | .makeTable
  | .makeKeymap | .currentBuffer | .killBuffer | .insert | .bufferText | .collect
  | .recursiveEdit => (0, none)

def accepts (b : Builtin) (count : Nat) : Bool :=
  decide (b.range.1 ≤ count) && match b.range.2 with
    | some most => decide (count ≤ most)
    | none => true

/-- What the error for a wrong number of arguments calls the builtin. -/
def family : Builtin → String
  | .isCons | .isList | .isNull | .not | .isText | .isNumber | .isInteger | .isSymbol
  | .isVector | .isBuffer | .isTable | .isFunction => "predicate"
  | .eq | .equal | .numEq | .less | .greater | .lessEq | .greaterEq => "comparison"
  | b => b.name

end Builtin

namespace Host

open Proc

/-! ## Predicates -/

/-- Truth if an object is as a test says. -/
def test (p : Shape → Bool) (o : Obj) : Proc Obj := do
  let h ← heap
  ofFlag (p (h.shape o))

def isConsShape : Shape → Bool
  | .cell (.cons _ _) => true
  | _ => false

def isListShape : Shape → Bool
  | .nil | .cell (.cons _ _) => true
  | _ => false

def isTextShape : Shape → Bool
  | .cell (.text _) => true
  | _ => false

def isIntegerShape : Shape → Bool
  | .int _ => true
  | _ => false

def isNumberShape : Shape → Bool
  | .int _ | .float _ => true
  | _ => false

def isSymbolShape : Shape → Bool
  | .nil | .cell (.symbol ..) => true
  | _ => false

def isVectorShape : Shape → Bool
  | .cell (.vector _) => true
  | _ => false

def isBufferShape : Shape → Bool
  | .cell (.buffer ..) => true
  | _ => false

def isTableShape : Shape → Bool
  | .cell (.table _) => true
  | _ => false

def isFunctionShape : Shape → Bool
  | .cell (.closure _) | .cell (.builtin _) => true
  | _ => false

/-! ## Numbers -/

/-- The number that a calculation gives. -/
def number (calculate : Heap → Except Signal Number) : Proc Obj := do
  let h ← heap
  let n ← check (calculate h)
  pure n.toObj

def quotient (o : Obj) (args : List Obj) : Proc Obj := do
  let h ← heap
  match Number.quotient h o args with
  | .ok n => pure n.toObj
  | .error s => .stop s

/-- Whether every two neighbours satisfy a comparison. -/
def compare (holds : Float → Float → Bool) (args : List Obj) : Proc Obj := do
  let h ← heap
  let ns ← check (args.mapM (Number.ofObj h))
  ofFlag (Number.isChain holds ns)

/-! ## Functions -/

/-- Applies a function to the given arguments and then those in a list. -/
def applyList (args : List Obj) : Proc Obj := do
  let h ← heap
  let last := args.getLastD .nil
  let items ← check (h.asList "listp" last)
  match args.dropLast ++ items with
  | f :: args => apply f args
  | [] => wrongForm "apply"

/-! ## The exchange -/

/-- Runs a registered script function. -/
def reenter (index generation args : Obj) : Proc Obj := do
  let h ← heap
  let key ← check (h.asKey index generation)
  let objects ← check (h.asList "listp" args)
  let parcels ← sendAll objects
  let result ← Border.invoke key parcels
  receive result

/-- Clears a key of a registry. -/
def clear (action : Key → Change Unit) (index generation : Obj) : Proc Obj := do
  let h ← heap
  let key ← check (h.asKey index generation)
  change (action key)
  truth

/-- Sweeps and tells how much was released. -/
def collect : Proc Obj := do
  let n ← change .sweep
  pure (.int (.ofNat n))

/-- Has the script side evaluate source. -/
def evaluateScript (source : Obj) : Proc Obj := do
  let h ← heap
  let source ← check (h.asText source)
  let result ← Border.evaluateSource source
  receive result

end Host

namespace Builtin

open Proc

/-- What a builtin does with a number of arguments that it accepts. -/
def compute (b : Builtin) (args : List Obj) : Proc Obj :=
  let first := args.getD 0 .nil
  let second := args.getD 1 .nil
  let third := args.getD 2 .nil
  match b with
  | .list => Host.list args
  | .cons => make (.cons first second)
  | .car => Host.car first
  | .cdr => Host.cdr first
  | .setCar => Host.setCar first second
  | .nth => Host.nth first second
  | .length => Host.length first
  | .reverse => Host.reverse first
  | .plistGet => Host.plistGet first second
  | .isCons => Host.test Host.isConsShape first
  | .isList => Host.test Host.isListShape first
  | .isNull | .not => Host.ofFlag first.isNil
  | .isText => Host.test Host.isTextShape first
  | .isNumber => Host.test Host.isNumberShape first
  | .isInteger => Host.test Host.isIntegerShape first
  | .isSymbol => Host.test Host.isSymbolShape first
  | .isVector => Host.test Host.isVectorShape first
  | .isBuffer => Host.test Host.isBufferShape first
  | .isTable => Host.test Host.isTableShape first
  | .isFunction => Host.test Host.isFunctionShape first
  | .eq => Host.ofFlag (first.eq second)
  | .equal => do
    let h ← heap
    Host.ofFlag (h.equal first second)
  | .identity => pure first
  | .ignore | .recursiveEdit => pure .nil
  | .add => Host.number fun h => Number.sum h args
  | .multiply => Host.number fun h => Number.product h args
  | .subtract => Host.number fun h => Number.difference h args
  | .divide => Host.quotient first args.tail
  | .increment => Host.number fun h => Number.sum h [first, .int .one]
  | .numEq => Host.compare (fun x y => x == y) args
  | .less => Host.compare (fun x y => decide (x < y)) args
  | .greater => Host.compare (fun x y => decide (x > y)) args
  | .lessEq => Host.compare (fun x y => decide (x ≤ y)) args
  | .greaterEq => Host.compare (fun x y => decide (x ≥ y)) args
  | .concat => Host.concat args
  | .vector => make (.vector args)
  | .makeVector => Host.makeVector first second
  | .aref => Host.aref first second
  | .aset => Host.aset first second third
  | .intern => Host.internText first
  | .unintern => Host.uninternName first
  | .symbolName => Host.symbolName first
  | .symbolValue => Host.symbolValue first
  | .symbolFunction => Host.symbolFunction first
  | .isBound => do
    let h ← heap
    Host.ofFlag (Host.isBound h first)
  | .hasFunction => do
    let h ← heap
    Host.ofFlag (Host.hasFunction h first)
  | .setValue => Host.setValue first second
  | .setFunction => Host.setFunction first second
  | .funcall => Host.apply first args.tail
  | .apply => Host.applyList args
  | .evaluate => Host.evaluate first
  | .error => Host.raise first args.tail
  | .signal => Host.signalUnder first second
  | .documentation => Host.documentation first
  | .isCommand => do
    let h ← heap
    Host.ofFlag (Host.isCommand h first)
  | .makeTable | .makeKeymap => Host.newTable
  | .putEntry => Host.putEntry "hash-table-p" first second third
  | .getEntry => Host.getEntry "hash-table-p" first second third
  | .countEntries => Host.countEntries first
  | .defineKey => Host.putEntry "keymapp" second third first
  | .lookupKey => Host.getEntry "keymapp" second first .nil
  | .currentBuffer => Host.currentBuffer
  | .bufferName => Host.bufferName args.head?
  | .getBuffer => Host.getBuffer first
  | .createBuffer => Host.createBuffer first
  | .selectBuffer => Host.selectBuffer first
  | .killBuffer => Host.killBuffer args.head?
  | .insert => Host.insert args
  | .bufferText => Host.bufferText
  | .reenter => Host.reenter first second third
  | .clearCallback => Host.clear .clearCallback first second
  | .clearProxy => Host.clear .clearProxy first second
  | .collect => Host.collect
  | .evaluateScript => Host.evaluateScript first

/-- Applies a builtin. -/
def run (b : Builtin) (args : List Obj) : Proc Obj :=
  if b.accepts args.length then b.compute args
  else Proc.signal (.wrongCount b.family args.length)

end Builtin

end Crossing
