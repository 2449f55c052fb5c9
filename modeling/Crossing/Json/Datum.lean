import Crossing.Fields
import Crossing.Number.Fixnum

/-!
# Structured data

The data that both runtimes can represent by value: JSON. Integers are kept
apart from floats, and a float is always finite, so that every datum has a text.
-/

namespace Crossing

/-- A JSON datum. The fields of an object are in ascending order of their names. -/
inductive Json where
  | null
  | bool (b : Bool)
  | int (i : Int)
  | float (x : Float) (finite : x.isFinite = true)
  | text (s : String)
  | list (items : List Json)
  | object (fields : List (String × Json))

namespace Json

/-- The datum of a float, if it is finite. -/
def ofFloat? (x : Float) : Option Json :=
  if h : x.isFinite = true then some (.float x h) else none

def ofFixnum (i : Fixnum) : Json := .int i.val

end Json

end Crossing
