import Crossing.Number.Fixnum

/-!
# TOML data

The content of a TOML document. Dates and times are only known to be there.
-/

namespace Crossing

/-- How a table came about, which decides what may still be added to it. -/
inductive TableKind where
  /-- Written in braces; nothing can be added. -/
  | closed
  /-- Under a header of its own; nothing can be added by dotted keys. -/
  | headed
  /-- On the way to a header; a header of its own may follow. -/
  | implied
  /-- On the way of a dotted key. -/
  | dotted
deriving DecidableEq, Repr

/-- A value of a TOML document. -/
inductive Toml where
  | text (s : String)
  | int (i : Fixnum)
  | float (x : Float)
  | bool (b : Bool)
  | date
  | list (items : List Toml)
  | table (kind : TableKind) (entries : List (String × Toml))
  /-- The tables under a header in double brackets, in order. -/
  | tables (all : List (List (String × Toml)))

/-- The entries of a table. -/
abbrev Toml.Entries := List (String × Toml)

/-- The value of a key. -/
def Toml.find? (key : String) (entries : Toml.Entries) : Option Toml :=
  (entries.find? fun e => e.1 == key).map Prod.snd

end Crossing
