import Crossing.Objects.Heap
import Crossing.Number.Layout
import Crossing.Text.Quoted

/-!
# Printed objects

The text of an object, as it would be typed in: lists in parentheses, vectors
in brackets, strings between quotes, symbols by their names. Tables, functions
and buffers have no such text and show what they are.
-/

namespace Crossing

namespace Heap

/-- The printed text of an object, down to `n` levels. -/
def printWithin (h : Heap) : (n : Nat) → Obj → String
  | 0, _ => ""
  | n + 1, o =>
    match h.shape o with
    | .nil => "nil"
    | .int i => i.text
    | .float x => plainText x
    | .cell (.text s) => quoted s
    | .cell (.symbol name _ _) => name
    | .cell (.cons _ _) =>
      let (items, last) := h.spine o
      let shown := " ".intercalate (items.map (h.printWithin n))
      if last.isNil then "(" ++ shown ++ ")"
      else "(" ++ shown ++ " . " ++ h.printWithin n last ++ ")"
    | .cell (.vector items) => "[" ++ " ".intercalate (items.map (h.printWithin n)) ++ "]"
    | .cell (.table entries) => "#<hash-table " ++ natText entries.length ++ ">"
    | .cell (.closure _) => "#<closure>"
    | .cell (.builtin b) => "#<subr " ++ b.name ++ ">"
    | .cell (.buffer name _ live) =>
      if live then "#<buffer " ++ name ++ ">" else "#<killed buffer>"

/-- The printed text of an object. Unless an object contains itself, it has no
more levels than the heap has cells. -/
def print (h : Heap) (o : Obj) : String := h.printWithin (h.size + 1) o

end Heap

end Crossing
