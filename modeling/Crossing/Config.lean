/-!
# Configuration

How a crossing is set up: how often it sweeps on its own, whether numbers are
sent by cached references, which host operations are reserved, and whether the
host may evaluate script source while script code runs.
-/

namespace Crossing

/-- The settings of a crossing. -/
structure Config where
  /-- Milliseconds between sweeps; zero means no periodic sweeps. -/
  intervalMs : Nat
  cacheNumbers : Bool
  forbidden : List String
  allowNested : Bool
deriving DecidableEq, Repr

namespace Config

/-- The settings that hold where nothing else is said. -/
def standard : Config where
  intervalMs := 1000
  cacheNumbers := true
  forbidden := ["eval-js", "eval-js-file", "recursive-edit"]
  allowNested := false

/-- The time between sweeps, if there are periodic sweeps. -/
def interval? (c : Config) : Option Nat :=
  if c.intervalMs = 0 then none else some c.intervalMs

/-- Whether an operation is reserved. Names are compared as they are written. -/
def isForbidden (c : Config) (name : String) : Bool := c.forbidden.contains name

/-- Sets the time between sweeps, in whole milliseconds that fit 64 bits. -/
def withInterval (c : Config) (seconds nanoseconds : Nat) : Config :=
  { c with intervalMs := min (seconds * 1000 + nanoseconds / 1000000) 18446744073709551615 }

end Config

end Crossing
