import Crossing.Config
import Crossing.Script.Value

/-!
# Answers of steps

What is reported of a step. A script value is described, a handle by the
structural form of its object at that moment; everything else is reported as it
is.
-/

namespace Crossing

/-- A script value as it is reported. -/
inductive Described where
  | null
  | bool (b : Bool)
  | int (i : Fixnum)
  | float (x : Float)
  | text (s : String)
  | list (items : List Described)
  | object (fields : List (String × Described))
  | handle (form : String) (id : ObjectId)
  | function (arity : Arity) (name : Option String)
  | native (name : String)

/-- A host object as it is reported. -/
structure ObjectReport where
  printed : String
  typeName : String
  json : Option String

/-- A script value from all sides. -/
structure Inspection where
  kind : Kind
  isNull : Bool
  bool? : Option Bool
  int? : Option Fixnum
  float? : Option Float
  text? : Option String
  length? : Option Nat
  isHandle : Bool
  isNative : Bool
  json : Except Failure String

/-- Counts of what the two sides hold. -/
structure Stats where
  /-- Handles that script code holds. -/
  live : Nat
  /-- Objects tracked, those that await a sweep included. -/
  tracked : Nat
  callbacks : Nat
  proxies : Nat
  /-- Callbacks in progress. -/
  depth : Nat
  /-- Objects released so far. -/
  released : Nat
  /-- Objects that the host keeps. -/
  retained : Nat
  /-- Release batches so far. -/
  batches : Nat
  /-- The name of the current buffer. -/
  buffer : String

/-- The report of a step. -/
inductive Answer where
  | value (d : Described)
  | nothing
  | flag (b : Bool)
  | count (n : Nat)
  | reference (id : ObjectId)
  | text (s : String)
  | parcel (p : Parcel)
  /-- A parcel and the number of handles kept alive for it. -/
  | packed (p : Parcel) (kept : Nat)
  | config (c : Config)
  | object (o : ObjectReport)
  | inspection (i : Inspection)
  | arity (isNullary : Bool) (accepts : List Bool) (name : Option String)
  | stats (s : Stats)
  | batches (bs : List (List ObjectId))

/-- What comes of a step: a script value, or something to report only. -/
inductive Outcome where
  | value (v : Value)
  | answer (a : Answer)

end Crossing
