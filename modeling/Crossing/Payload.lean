import Crossing.Failure
import Crossing.Json.Writing

/-!
# Data in parcels

Data crosses as text. The host ends its strings by a NUL, so a datum with a NUL
in a string or in the name of a field has no such text.

- `Json.toText` gives the text of a datum, `Json.ofText` reads it;
- `Json.isNulFree` says which data have a text.
-/

namespace Crossing

namespace Json

def hasNul (s : String) : Bool := s.toList.contains '\x00'

mutual

/-- Whether no string and no name of a field contains a NUL. -/
def isNulFree : Json → Bool
  | .null => true
  | .bool _ => true
  | .int _ => true
  | .float _ _ => true
  | .text s => !hasNul s
  | .list items => isNulFreeIn items
  | .object fields => isNulFreeOf fields

/-- Whether no item contains a NUL. -/
def isNulFreeIn : List Json → Bool
  | [] => true
  | j :: js => isNulFree j && isNulFreeIn js

/-- Whether no field contains a NUL. -/
def isNulFreeOf : List (String × Json) → Bool
  | [] => true
  | (k, j) :: fields => !hasNul k && isNulFree j && isNulFreeOf fields

end

/-- The text of a datum, which the host can represent if it has no NUL. -/
def toText (j : Json) : Except Failure String :=
  if j.isNulFree then .ok j.render else .error .containsNul

/-- Reads the text of a datum that the host sent. -/
def ofText (text : String) : Except Failure Json :=
  match parse text with
  | .ok j => .ok j
  | .error fault => .error (.malformed fault text)

end Json

end Crossing
