import Crossing.Objects.Heap
import Crossing.Json.Datum

/-!
# Objects as structured data

The structural form of an object: a datum with its content. Lists and vectors
become lists, tables become objects, symbols become their names. Functions and
buffers have no structural form, and neither has anything that contains them.

- `Heap.toJson?` is the structural form;
- `Heap.meetsTruth` says whether building it comes across a symbol that has the
  name of truth.
-/

namespace Crossing

namespace Heap

/-- The text of a key of a table: a string or the name of a symbol. -/
def keyText? (h : Heap) (o : Obj) : Option String :=
  match h.shape o with
  | .cell (.text s) => some s
  | .cell (.symbol name _ _) => some name
  | _ => none

/-- The structural form of an object, down to `n` levels. `truth` is the symbol
that stands for truth. -/
def toJsonWithin (h : Heap) (truth : Obj) : (n : Nat) → Obj → Option Json
  | 0, _ => none
  | n + 1, o =>
    match h.shape o with
    | .nil => some .null
    | .int i => some (.ofFixnum i)
    | .float x => Json.ofFloat? x
    | .cell (.text s) => some (.text s)
    | .cell (.symbol name _ _) =>
      if name = truthName ∧ o.eq truth then some (.bool true) else some (.text name)
    | .cell (.cons _ _) =>
      (h.list? o).bind fun items => (items.mapM (h.toJsonWithin truth n)).map .list
    | .cell (.vector items) => (items.mapM (h.toJsonWithin truth n)).map .list
    | .cell (.table entries) =>
      (entries.foldlM (fun (fields : Fields Json) (e : Obj × Obj) => do
        let name ← h.keyText? e.1
        let j ← h.toJsonWithin truth n e.2
        pure (Fields.put name j fields)) []).map .object
    | .cell (.closure _) => none
    | .cell (.builtin _) => none
    | .cell (.buffer ..) => none

/-- The structural form of an object, if it has one. -/
def toJson? (h : Heap) (truth : Obj) (o : Obj) : Option Json :=
  h.toJsonWithin truth (h.size + 1) o

/-! ## Truth on the way -/

/-- Whether a search through `items` succeeds before an item without a
structural form ends it. -/
def meetsIn (meets hasForm : Obj → Bool) : List Obj → Bool
  | [] => false
  | o :: items => meets o || (hasForm o && meetsIn meets hasForm items)

/-- Whether building the structural form comes across a symbol named like
truth, down to `n` levels. -/
def meetsTruthWithin (h : Heap) : (n : Nat) → Obj → Bool
  | 0, _ => false
  | n + 1, o =>
    let hasForm := fun o => (h.toJsonWithin .nil n o).isSome
    match h.shape o with
    | .cell (.symbol name _ _) => name == truthName
    | .cell (.cons _ _) =>
      match h.list? o with
      | some items => meetsIn (h.meetsTruthWithin n) hasForm items
      | none => false
    | .cell (.vector items) => meetsIn (h.meetsTruthWithin n) hasForm items
    | .cell (.table entries) =>
      meetsIn (h.meetsTruthWithin n) hasForm
        ((entries.takeWhile fun e => (h.keyText? e.1).isSome).map Prod.snd)
    | _ => false

/-- Whether building the structural form comes across a symbol named like truth. -/
def meetsTruth (h : Heap) (o : Obj) : Bool := h.meetsTruthWithin (h.size + 1) o

end Heap

end Crossing
