import Crossing.Config
import Crossing.Toml.Reading

/-!
# Configuration from TOML

The settings stand in three sections. A section gives its settings by name, or
as a list in the order of their definition. What is not given keeps its standard
value; what is not known is ignored.

- `Config.ofToml?` reads a configuration.
-/

namespace Crossing

namespace Config

/-- The settings of a section, by their names. A date counts as a section
without settings. -/
def settings? (names : List String) : Toml → Option (List (Option Toml))
  | .table _ entries => some (names.map fun name => Toml.find? name entries)
  | .list items => some ((List.range names.length).map fun i => items[i]?)
  | .tables all =>
    some ((List.range names.length).map fun i => all[i]?.map (.table .headed))
  | .date => some (names.map fun _ => none)
  | _ => none

/-- A setting that may be missing. -/
def orStandard {α : Type} (standard : α) (read : Toml → Option α) : Option Toml → Option α
  | none => some standard
  | some v => read v

/-- A count, which fits a fixnum. -/
def count? : Toml → Option Nat
  | .int i => if 0 ≤ i.val then some i.val.toNat else none
  | _ => none

def flag? : Toml → Option Bool
  | .bool b => some b
  | _ => none

def name? : Toml → Option String
  | .text s => some s
  | _ => none

def names? : Toml → Option (List String)
  | .list items => items.mapM name?
  | _ => none

/-- Takes over the settings of the section for sweeps. -/
def withSweep (c : Config) (v : Toml) : Option Config := do
  match ← settings? ["interval_ms"] v with
  | [interval] =>
    let intervalMs ← orStandard c.intervalMs count? interval
    pure { c with intervalMs }
  | _ => none

/-- Takes over the settings of the section for packing. -/
def withMarshal (c : Config) (v : Toml) : Option Config := do
  match ← settings? ["cache_numbers"] v with
  | [cache] =>
    let cacheNumbers ← orStandard c.cacheNumbers flag? cache
    pure { c with cacheNumbers }
  | _ => none

/-- Takes over the settings of the section for privileges. -/
def withPrivilege (c : Config) (v : Toml) : Option Config := do
  match ← settings? ["forbidden_operations", "allow_nested_literal_eval"] v with
  | [operations, nested] =>
    let forbidden ← orStandard c.forbidden names? operations
    let allowNested ← orStandard c.allowNested flag? nested
    pure { c with forbidden, allowNested }
  | _ => none

/-- Takes over a section if it is there. -/
def withSection (entries : Toml.Entries) (name : String)
    (take : Config → Toml → Option Config) (c : Config) : Option Config :=
  match Toml.find? name entries with
  | some v => take c v
  | none => some c

/-- The configuration that a document gives. -/
def ofToml? (text : String) : Option Config := do
  let entries ← Toml.parse? text
  let c ← withSection entries "sweep" withSweep standard
  let c ← withSection entries "marshal" withMarshal c
  withSection entries "privilege" withPrivilege c

end Config

end Crossing
