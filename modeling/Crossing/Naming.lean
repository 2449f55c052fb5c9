/-!
# Names across the crossing

Script code cannot write a dash in a name and spells it as an underscore, so
every name it gives is canonicalised first. Keywords are the names that start
with a colon.

The forms and markers that the two runtimes exchange are headed by reserved
symbols, whose names are here too.
-/

namespace Crossing

/-- What a script name is taken for. -/
inductive SymbolKind where
  | symbol
  | keyword
deriving DecidableEq, Repr

/-- The name with dashes in place of underscores. -/
def canonicalName (name : String) : String :=
  name.map fun c => if c = '_' then '-' else c

/-- Whether a symbol of this name is a keyword. -/
def isKeywordName (name : String) : Bool := name.toList.head? == some ':'

/-- The name of the host symbol that a script name stands for. -/
def hostName (name : String) (kind : SymbolKind) : String :=
  let name := canonicalName name
  match kind with
  | .symbol => name
  | .keyword => if isKeywordName name then name else ":" ++ name

/-! ## Reserved names -/

/-- The function that runs a registered script function. -/
def reenterName : String := "bridge--reenter"

/-- The parameter of the closures made for script functions. -/
def argumentsName : String := "bridge--args"

/-- The head of the list that stands for a wrapped script object. -/
def markerName : String := "bridge--proxy"

/-- The name of the symbol that stands for truth. -/
def truthName : String := "t"

end Crossing
