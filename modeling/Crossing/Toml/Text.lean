import Crossing.Number.Reading
import Crossing.Toml.Datum

/-!
# Strings and keys of TOML

Strings are written between single quotes as they are, or between double quotes
with escapes. Between three quotes they may go over several lines. A key is a
word or a string of one line; a dotted key is several of them.

- `Toml.readText` reads a string, `Toml.readKey` a dotted key.
-/

namespace Crossing

namespace Toml

/-- A part that has been read, and the text after it. -/
abbrev Part (α : Type) := α × List Char

/-! ## Characters -/

def isSpace (c : Char) : Bool := c = ' ' ∨ c = '\t'

def skipSpace (cs : List Char) : List Char := cs.dropWhile isSpace

/-- Whether a character may stand in a string or a comment as it is. -/
def isPrinting (c : Char) : Bool :=
  c = '\t' ∨ (' ' ≤ c ∧ c ≠ '\x7f')

/-- The text after a line end, if the text starts with one. -/
def afterNewline? : List Char → Option (List Char)
  | '\n' :: cs => some cs
  | '\r' :: '\n' :: cs => some cs
  | _ => none

/-- The text after a line end, or the whole text if it starts with none. -/
def dropNewline (cs : List Char) : List Char := (afterNewline? cs).getD cs

/-- The character of a code point in hexadecimal digits. -/
def ofHex? (digits : List Char) : Option Char := do
  let n ← digits.foldlM (fun n c => (hexValue? c).map (16 * n + ·)) 0
  if n.isValidChar then pure (Char.ofNat n) else none

/-- What an escape of one letter stands for. -/
def ofEscape? (c : Char) : Option Char :=
  match c with
  | 'b' => some '\x08'
  | 't' => some '\t'
  | 'n' => some '\n'
  | 'f' => some '\x0c'
  | 'r' => some '\r'
  | '"' => some '"'
  | '\\' => some '\\'
  | _ => none

/-- Reads an escape after its backslash. -/
def readEscape : List Char → Option (Part Char)
  | 'u' :: cs => (ofHex? (cs.take 4)).bind fun c =>
    if cs.length < 4 then none else some (c, cs.drop 4)
  | 'U' :: cs => (ofHex? (cs.take 8)).bind fun c =>
    if cs.length < 8 then none else some (c, cs.drop 8)
  | c :: cs => (ofEscape? c).map fun c => (c, cs)
  | [] => none

/-! ## Strings of one line -/

/-- Reads a string between single quotes, after the first. -/
def readLiteral : List Char → Option (Part (List Char))
  | [] => none
  | '\'' :: cs => some ([], cs)
  | c :: cs =>
    if isPrinting c then (readLiteral cs).map fun (s, rest) => (c :: s, rest) else none

/-- Reads a string between double quotes, after the first. Every round takes a
character, so `fuel` above the length of the text is enough. -/
def readBasic : (fuel : Nat) → List Char → Option (Part (List Char))
  | 0, _ => none
  | _ + 1, [] => none
  | _ + 1, '"' :: cs => some ([], cs)
  | fuel + 1, '\\' :: cs => do
    let (c, cs) ← readEscape cs
    let (s, rest) ← readBasic fuel cs
    pure (c :: s, rest)
  | fuel + 1, c :: cs =>
    if isPrinting c then (readBasic fuel cs).map fun (s, rest) => (c :: s, rest) else none

/-! ## Strings of several lines -/

/-- The text after a run of a character, and how long the run is. -/
def takeRun (c : Char) (cs : List Char) : Part Nat :=
  ((cs.takeWhile (· = c)).length, cs.dropWhile (· = c))

/-- What a run of quotes means in a string between three of them: up to two
belong to the string, and three end it, with up to two more before them. -/
def readQuotes (quote : Char) (cs : List Char) (next : List Char → Option (Part (List Char))) :
    Option (Part (List Char)) :=
  let (n, rest) := takeRun quote cs
  if n < 3 then (next rest).map fun (s, rest) => (List.replicate n quote ++ s, rest)
  else if n < 6 then some (List.replicate (n - 3) quote, rest)
  else none

/-- The text after a backslash at the end of a line: the line end and all space
and further line ends are dropped. -/
def afterLineBreak? (cs : List Char) : Option (List Char) :=
  (afterNewline? (skipSpace cs)).map dropBlank
where
  dropBlank : List Char → List Char
    | '\n' :: cs => dropBlank cs
    | '\r' :: '\n' :: cs => dropBlank cs
    | c :: cs => if isSpace c then dropBlank cs else c :: cs
    | [] => []

/-- Reads a string between three single quotes, after the first ones. -/
def readLongLiteral : (fuel : Nat) → List Char → Option (Part (List Char))
  | 0, _ => none
  | _ + 1, [] => none
  | fuel + 1, '\'' :: cs => readQuotes '\'' ('\'' :: cs) (readLongLiteral fuel)
  | fuel + 1, c :: cs =>
    match afterNewline? (c :: cs) with
    | some rest => (readLongLiteral fuel rest).map fun (s, rest) => ('\n' :: s, rest)
    | none =>
      if isPrinting c then (readLongLiteral fuel cs).map fun (s, rest) => (c :: s, rest)
      else none

/-- Reads a string between three double quotes, after the first ones. -/
def readLongBasic : (fuel : Nat) → List Char → Option (Part (List Char))
  | 0, _ => none
  | _ + 1, [] => none
  | fuel + 1, '"' :: cs => readQuotes '"' ('"' :: cs) (readLongBasic fuel)
  | fuel + 1, '\\' :: cs =>
    match afterLineBreak? cs with
    | some rest => readLongBasic fuel rest
    | none => do
      let (c, cs) ← readEscape cs
      let (s, rest) ← readLongBasic fuel cs
      pure (c :: s, rest)
  | fuel + 1, c :: cs =>
    match afterNewline? (c :: cs) with
    | some rest => (readLongBasic fuel rest).map fun (s, rest) => ('\n' :: s, rest)
    | none =>
      if isPrinting c then (readLongBasic fuel cs).map fun (s, rest) => (c :: s, rest)
      else none

/-- Reads a string. A line end right after three quotes does not belong to it. -/
def readText : List Char → Option (Part String)
  | '"' :: '"' :: '"' :: cs =>
    (readLongBasic (cs.length + 1) (dropNewline cs)).map fun (s, rest) =>
      (String.ofList s, rest)
  | '"' :: cs =>
    (readBasic (cs.length + 1) cs).map fun (s, rest) => (String.ofList s, rest)
  | '\'' :: '\'' :: '\'' :: cs =>
    (readLongLiteral (cs.length + 1) (dropNewline cs)).map fun (s, rest) =>
      (String.ofList s, rest)
  | '\'' :: cs => (readLiteral cs).map fun (s, rest) => (String.ofList s, rest)
  | _ => none

/-! ## Keys -/

/-- Whether a character may stand in a key without quotes. -/
def isKeyChar (c : Char) : Bool := c.isAlphanum || c = '_' || c = '-'

/-- Reads a key without dots. -/
def readSimpleKey : List Char → Option (Part String)
  | '"' :: cs => (readBasic (cs.length + 1) cs).map fun (s, rest) => (String.ofList s, rest)
  | '\'' :: cs => (readLiteral cs).map fun (s, rest) => (String.ofList s, rest)
  | cs =>
    let word := cs.takeWhile isKeyChar
    if word.isEmpty then none else some (String.ofList word, cs.dropWhile isKeyChar)

/-- How deep keys and values may go. -/
def maxNesting : Nat := 80

/-- Reads a dotted key of at most `n` parts, with space around each. -/
def readKey : (n : Nat) → List Char → Option (Part (List String))
  | 0, _ => none
  | n + 1, cs => do
    let (part, rest) ← readSimpleKey (skipSpace cs)
    match skipSpace rest with
    | '.' :: rest => do
      let (parts, rest) ← readKey n rest
      pure (part :: parts, rest)
    | rest => pure ([part], rest)

end Toml

end Crossing
