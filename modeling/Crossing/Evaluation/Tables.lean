import Crossing.Evaluation.Exchange

/-!
# Hash tables

The functions of the host on hash tables. A keymap is a hash table too; only
the predicate that an error names differs.
-/

namespace Crossing

namespace Host

open Proc

def newTable : Proc Obj := make .table

/-- Gives a key of a table a value. -/
def putEntry (predicate : String) (key value table : Obj) : Proc Obj := do
  let h ← heap
  let (a, _) ← check (h.asTable predicate table)
  change (.putEntry a key value)
  pure value

/-- The value of a key of a table, or a default. -/
def getEntry (predicate : String) (key table default : Obj) : Proc Obj := do
  let h ← heap
  let (_, entries) ← check (h.asTable predicate table)
  pure ((h.lookup? key entries).getD default)

def countEntries (table : Obj) : Proc Obj := do
  let h ← heap
  let (_, entries) ← check (h.asTable "hash-table-p" table)
  pure (.int (.ofNat entries.length))

end Host

end Crossing
