import Crossing.Toml.Text

/-!
# Tables of TOML

How keys and headers build tables. A dotted key makes the tables on its way, and
so does a header. No key is given twice, no table has two headers, and neither
dotted keys nor headers add to a table that was written in another way.

- `Toml.put` adds a value under a dotted key;
- `Toml.addSection` adds what stands under a header;
- `Toml.ofSections` builds a document.
-/

namespace Crossing

namespace Toml

/-- A value and its dotted key, the last part apart. -/
structure Entry where
  path : List String
  key : String
  value : Toml

/-- A header, in single or double brackets, and the entries under it. -/
structure Section where
  path : List String
  key : String
  repeated : Bool
  entries : List Entry

/-- Gives a key a value in the place of its former one, or at the end. -/
def replace (key : String) (v : Toml) : Entries → Entries
  | [] => [(key, v)]
  | (k, w) :: entries => if k = key then (k, v) :: entries else (k, w) :: replace key v entries

/-- Replaces the last of several tables by what `f` makes of it. -/
def modifyLast (f : Entries → Option Entries) : List Entries → Option (List Entries)
  | [] => none
  | [entries] => (f entries).map fun entries => [entries]
  | entries :: rest => (modifyLast f rest).map (entries :: ·)

/-! ## Dotted keys -/

/-- Adds an entry to a table that dotted keys lead to. `kind` is how the table
came about, and `dotted` whether a dotted key has led to it. -/
def putAt (key : String) (v : Toml) (kind : TableKind) (dotted : Bool) :
    (path : List String) → Entries → Option Entries
  | [], entries =>
    if decide (kind = .dotted) ≠ dotted then none
    else match find? key entries with
      | some _ => none
      | none => some (entries ++ [(key, v)])
  | part :: path, entries =>
    match find? part entries with
    | none => (putAt key v .dotted true path []).map fun inner =>
      entries ++ [(part, .table .dotted inner)]
    | some (.table inKind inner) =>
      if inKind = .implied ∨ inKind = .dotted then
        (putAt key v inKind true path inner).map fun inner =>
          replace part (.table inKind inner) entries
      else none
    | some (.tables all) =>
      (modifyLast (putAt key v .headed true path) all).map fun all =>
        replace part (.tables all) entries
    | some _ => none

/-- Adds an entry to a table that is not reached by a dotted key. -/
def put (entries : Entries) (e : Entry) : Option Entries :=
  putAt e.key e.value .headed false e.path entries

/-! ## Headers -/

/-- Changes the table that the path of a header leads to. -/
def modifyAt (f : Entries → Option Entries) : (path : List String) → Entries → Option Entries
  | [], entries => f entries
  | part :: path, entries =>
    match find? part entries with
    | none => (modifyAt f path []).map fun inner => entries ++ [(part, .table .implied inner)]
    | some (.table kind inner) =>
      if kind = .closed then none
      else (modifyAt f path inner).map fun inner => replace part (.table kind inner) entries
    | some (.tables all) =>
      (modifyLast (modifyAt f path) all).map fun all => replace part (.tables all) entries
    | some _ => none

/-- Adds entries one after the other. -/
def putAll (start : Entries) (entries : List Entry) : Option Entries := entries.foldlM put start

/-- Adds the table under a header to the table that its path leads to. A header
in double brackets adds one more table. -/
def addUnder (s : Section) (parent : Entries) : Option Entries :=
  match find? s.key parent, s.repeated with
  | none, false => (putAll [] s.entries).map fun t => parent ++ [(s.key, .table .headed t)]
  | some (.table .implied start), false =>
    (putAll start s.entries).map fun t => replace s.key (.table .headed t) parent
  | none, true => (putAll [] s.entries).map fun t => parent ++ [(s.key, .tables [t])]
  | some (.tables all), true =>
    (putAll [] s.entries).map fun t => replace s.key (.tables (all ++ [t])) parent
  | _, _ => none

def addSection (root : Entries) (s : Section) : Option Entries :=
  modifyAt (addUnder s) s.path root

/-- Builds a document from the entries before the first header and the sections
after it. -/
def ofSections (entries : List Entry) (sections : List Section) : Option Entries := do
  let root ← putAll [] entries
  sections.foldlM addSection root

end Toml

end Crossing
