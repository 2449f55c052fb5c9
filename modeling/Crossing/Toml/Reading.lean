import Crossing.Toml.Scalar
import Crossing.Toml.Table
import Crossing.Toml.Text

/-!
# Reading TOML

A document is a sequence of lines: entries, headers, comments and empty lines.
Values may hold lists, which may go over several lines, and tables in braces,
which may not.

- `Toml.readValue` reads a value;
- `Toml.parse?` reads a document.
-/

namespace Crossing

namespace Toml

/-! ## Space and comments -/

/-- The text after a comment, if it starts with one. -/
def skipComment (cs : List Char) : List Char :=
  match cs with
  | '#' :: cs => cs.dropWhile isPrinting
  | cs => cs

/-- The text after the rest of a line, which holds nothing but space and a
comment; the text may also end there. -/
def endLine? (cs : List Char) : Option (List Char) :=
  match skipComment (skipSpace cs) with
  | [] => some []
  | cs => afterNewline? cs

/-- Skips space, line ends and comments. Every round takes a character, so
`fuel` above the length of the text is enough. -/
def skipLines : (fuel : Nat) → List Char → List Char
  | 0, cs => cs
  | fuel + 1, cs =>
    let cs := skipSpace cs
    match afterNewline? (skipComment cs) with
    | some rest => skipLines fuel rest
    | none => cs

/-- Skips space, line ends and comments. -/
def skipBlank (cs : List Char) : List Char := skipLines (cs.length + 1) cs

/-! ## Values -/

/-- Whether a character ends a token. -/
def isDelimiter (c : Char) : Bool :=
  isSpace c || c = '\n' || c = '\r' || c = ',' || c = ']' || c = '\x7d' || c = '#'

/-- Splits off a token. -/
def takeToken (cs : List Char) : Part (List Char) :=
  (cs.takeWhile fun c => !isDelimiter c, cs.dropWhile fun c => !isDelimiter c)

/-- Reads a scalar that is no string. A time may follow its date after one
space. -/
def readScalar (cs : List Char) : Option (Part Toml) :=
  let (token, rest) := takeToken cs
  (ofToken? token).map fun v =>
    match v, rest with
    | .date, ' ' :: more =>
      let (time, after) := takeToken more
      if isDate token && isZonedTime time then (v, after) else (v, rest)
    | _, _ => (v, rest)

/-- Splits the last part off a dotted key. -/
def toEntry? (key : List String) (v : Toml) : Option Entry :=
  key.getLast?.map fun last => ⟨key.dropLast, last, v⟩

mutual

/-- Reads a value inside of `depth` others. Every round takes a character, so
`fuel` above the length of the text is enough. -/
def readValue : (fuel depth : Nat) → List Char → Option (Part Toml)
  | 0, _, _ => none
  | fuel + 1, depth, cs =>
    match cs with
    | '[' :: cs =>
      if depth + 1 < maxNesting then
        match skipBlank cs with
        | ']' :: rest => some (.list [], rest)
        | cs => (readItems fuel (depth + 1) cs).map fun (vs, rest) => (.list vs, rest)
      else none
    | '\x7b' :: cs =>
      if depth + 1 < maxNesting then
        match skipSpace cs with
        | '\x7d' :: rest => some (.table .closed [], rest)
        | cs => do
          let (entries, rest) ← readEntries fuel (depth + 1) cs
          let table ← putAll [] entries
          pure (.table .closed table, rest)
      else none
    | c :: _ =>
      if c = '"' ∨ c = '\'' then (readText cs).map fun (s, rest) => (.text s, rest)
      else readScalar cs
    | [] => none

/-- Reads the items of a list from the next one on. A comma may follow the last
one. -/
def readItems : (fuel depth : Nat) → List Char → Option (Part (List Toml))
  | 0, _, _ => none
  | fuel + 1, depth, cs => do
    let (v, rest) ← readValue fuel depth cs
    match skipBlank rest with
    | ']' :: rest => pure ([v], rest)
    | ',' :: rest =>
      match skipBlank rest with
      | ']' :: rest => pure ([v], rest)
      | rest =>
        let (vs, rest) ← readItems fuel depth rest
        pure (v :: vs, rest)
    | _ => none

/-- Reads the entries of a table in braces from the next one on. -/
def readEntries : (fuel depth : Nat) → List Char → Option (Part (List Entry))
  | 0, _, _ => none
  | fuel + 1, depth, cs => do
    let (key, rest) ← readKey (maxNesting - 1) cs
    match rest with
    | '=' :: rest =>
      let (v, rest) ← readValue fuel depth (skipSpace rest)
      let e ← toEntry? key v
      match skipSpace rest with
      | '\x7d' :: rest => pure ([e], rest)
      | ',' :: rest =>
        let (es, rest) ← readEntries fuel depth rest
        pure (e :: es, rest)
      | _ => none
    | _ => none

end

/-! ## Lines -/

/-- A line of a document. -/
inductive Line where
  | entry (e : Entry)
  | header (path : List String) (key : String) (repeated : Bool)
  /-- A line with nothing but space and a comment. -/
  | blank

/-- Reads a header after its first bracket. -/
def readHeader (cs : List Char) : Option (Part Line) :=
  match cs with
  | '[' :: cs => do
    let (key, rest) ← readKey (maxNesting - 1) cs
    let last ← key.getLast?
    match rest with
    | ']' :: ']' :: rest => pure (.header key.dropLast last true, rest)
    | _ => none
  | cs => do
    let (key, rest) ← readKey (maxNesting - 1) cs
    let last ← key.getLast?
    match rest with
    | ']' :: rest => pure (.header key.dropLast last false, rest)
    | _ => none

/-- Reads an entry. -/
def readEntry (cs : List Char) : Option (Part Line) := do
  let (key, rest) ← readKey (maxNesting - 1) cs
  match rest with
  | '=' :: rest =>
    let (v, rest) ← readValue (2 * rest.length + 1) 0 (skipSpace rest)
    let e ← toEntry? key v
    pure (.entry e, rest)
  | _ => none

/-- Reads what a line holds, up to its comment. -/
def readLine (cs : List Char) : Option (Part Line) :=
  match skipSpace cs with
  | [] => some (.blank, [])
  | '[' :: cs => readHeader cs
  | c :: cs =>
    if c = '#' ∨ c = '\n' ∨ c = '\r' then some (.blank, c :: cs) else readEntry (c :: cs)

/-- Reads lines to the end of the text. Every line takes a character, so `fuel`
above the length of the text is enough. -/
def readLines : (fuel : Nat) → List Char → Option (List Line)
  | 0, _ => none
  | _ + 1, [] => some []
  | fuel + 1, cs => do
    let (line, rest) ← readLine cs
    let rest ← endLine? rest
    let lines ← readLines fuel rest
    pure (line :: lines)

/-- The entries before the first header, and the sections after it. -/
def group : List Line → List Entry × List Section
  | [] => ([], [])
  | line :: lines =>
    let (entries, sections) := group lines
    match line with
    | .entry e => (e :: entries, sections)
    | .header path key repeated => ([], ⟨path, key, repeated, entries⟩ :: sections)
    | .blank => (entries, sections)

/-- The text after a byte order mark, or the whole text if it starts with none. -/
def dropMark : List Char → List Char
  | '\ufeff' :: cs => cs
  | cs => cs

/-- The table that a document is. -/
def parse? (text : String) : Option Entries := do
  let cs := dropMark text.toList
  let lines ← readLines (cs.length + 1) cs
  let (entries, sections) := group lines
  ofSections entries sections

end Toml

end Crossing
