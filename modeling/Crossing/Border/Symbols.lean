import Crossing.Proc.Basic

/-!
# Symbols across the border

Script code gets hold of host functions and variables by looking up symbols. A
lookup may be answered from memory as long as the handle that it gave last is
still live. Reserved operations are refused by name.
-/

namespace Crossing

namespace Border

open Proc

/-- Fails if an operation is reserved. -/
def refuseForbidden (name : String) : Proc Unit := do
  let config ← query .config
  if config.isForbidden name then fail (.forbidden name) else pure ()

/-- Fails if a handle was looked up by the name of a reserved operation. -/
def refuseForbiddenHandle (h : Handle) : Proc Unit := do
  match ← query (.nameOf? h) with
  | some name => refuseForbidden name
  | none => pure ()

/-- Has the host intern a name, and remembers the handle. -/
def internNow (name : String) (kind : SymbolKind) : Proc Handle := do
  let o ← change (.intern name)
  let id ← change (.retain o)
  let h ← change (.adopt id)
  change (.recordName h name)
  change (.cacheSymbol kind name h)
  pure h

/-- The handle of a symbol; from memory, if it may be. -/
def lookup (name : String) (kind : SymbolKind) (cached : Bool) : Proc Handle := do
  let name := hostName name kind
  if cached then
    match ← change (.recallSymbol kind name) with
    | some h => pure h
    | none => internNow name kind
  else internNow name kind

def symbol (name : String) : Proc Handle := lookup name .symbol true

def keyword (name : String) : Proc Handle := lookup name .keyword true

end Border

end Crossing
