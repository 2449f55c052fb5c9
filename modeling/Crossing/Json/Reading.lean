import Crossing.Json.Datum
import Crossing.Number.Reading
import Crossing.Text.Position

/-!
# Reading structured data

A reader for JSON texts that says what is wrong and where. It stops at the
first byte that no valid text could have there.

- `Json.parse` reads a whole text;
- `Json.Cause` lists what can be wrong, `Json.Fault` adds the position;
- lists and objects may nest `maxNesting - 1` deep.
-/

namespace Crossing

namespace Json

/-! ## Faults -/

/-- What is wrong with a text. -/
inductive Cause where
  | unfinishedValue
  | unfinishedList
  | unfinishedObject
  | unfinishedString
  | expectedValue
  | expectedWord
  | expectedCommaOrBracket
  | expectedCommaOrBrace
  | expectedColon
  | trailingComma
  | keyNotString
  | badEscape
  | controlCharacter
  | unfinishedPair
  | unpairedSurrogate
  | badNumber
  | numberTooLarge
  | trailingText
  | tooDeep
deriving DecidableEq, Repr

def Cause.message : Cause → String
  | .unfinishedValue => "EOF while parsing a value"
  | .unfinishedList => "EOF while parsing a list"
  | .unfinishedObject => "EOF while parsing an object"
  | .unfinishedString => "EOF while parsing a string"
  | .expectedValue => "expected value"
  | .expectedWord => "expected ident"
  | .expectedCommaOrBracket => "expected `,` or `]`"
  | .expectedCommaOrBrace => "expected `,` or `\x7d`"
  | .expectedColon => "expected `:`"
  | .trailingComma => "trailing comma"
  | .keyNotString => "key must be a string"
  | .badEscape => "invalid escape"
  | .controlCharacter => "control character (\\u0000-\\u001F) found while parsing a string"
  | .unfinishedPair => "unexpected end of hex escape"
  | .unpairedSurrogate => "lone leading surrogate in hex escape"
  | .badNumber => "invalid number"
  | .numberTooLarge => "number out of range"
  | .trailingText => "trailing characters"
  | .tooDeep => "recursion limit exceeded"

/-- What is wrong, and where. -/
structure Fault where
  cause : Cause
  position : Position
deriving DecidableEq, Repr

def Fault.message (f : Fault) : String :=
  f.cause.message ++ " at line " ++ natText f.position.line ++
    " column " ++ natText f.position.column

/-- A fault met while reading: the cause and the number of bytes that follow
the offending one. -/
structure Stuck where
  cause : Cause
  unread : Nat
deriving DecidableEq, Repr

/-- A part that has been read, and the text after it. -/
abbrev Part (α : Type) := α × List Char

/-- Stuck at the first byte of `cs`, or at the end of the text. -/
def stuckAt {α : Type} (cause : Cause) (cs : List Char) : Except Stuck α :=
  .error ⟨cause, byteLength cs - 1⟩

/-- Stuck right before `cs`. -/
def stuckBefore {α : Type} (cause : Cause) (cs : List Char) : Except Stuck α :=
  .error ⟨cause, byteLength cs⟩

/-! ## Blanks and words -/

def isSpace (c : Char) : Bool := c = ' ' ∨ c = '\t' ∨ c = '\n' ∨ c = '\r'

def skipSpace (cs : List Char) : List Char := cs.dropWhile isSpace

/-- Reads the rest of a word such as `null`. -/
def readWord (j : Json) : (word : List Char) → (cs : List Char) → Except Stuck (Part Json)
  | [], cs => .ok (j, cs)
  | _ :: _, [] => stuckAt .unfinishedValue []
  | w :: word, c :: cs => if c = w then readWord j word cs else stuckAt .expectedWord (c :: cs)

/-! ## Numbers -/

/-- The number written by an integer without sign. Those that fit 64 bits are
integers, all others are floats, and so is minus zero. -/
def ofDigits? (negative : Bool) (n : Nat) : Option Json :=
  if negative then
    if n ≠ 0 ∧ n ≤ 9223372036854775808 then some (.int (-(n : Int)))
    else ofFloat? (roundDecimal true n 0)
  else
    if n ≤ 18446744073709551615 then some (.int n)
    else ofFloat? (roundDecimal false n 0)

/-- A number with a point or an exponent. -/
def ofDecimal (negative : Bool) (n : Nat) (exponent : Int) (cs : List Char) :
    Except Stuck (Part Json) :=
  match ofFloat? (roundDecimal negative n exponent) with
  | some j => .ok (j, cs)
  | none => stuckBefore .numberTooLarge cs

/-- A signed exponent from its digits. -/
def exponentOf (small : Bool) (exponent : Nat) : Int :=
  if small then -(exponent : Int) else exponent

/-- Reads the digits of an exponent. One that no 32-bit word can hold is too
large as soon as it leaves the range, unless the number is zero or tiny. -/
def readExponentDigits (negative : Bool) (n : Nat) (shift : Int) (small : Bool) :
    (exponent : Nat) → List Char → Except Stuck (Part Json)
  | exponent, [] => ofDecimal negative n (exponentOf small exponent - shift) []
  | exponent, c :: cs =>
    match digitValue? c with
    | none => ofDecimal negative n (exponentOf small exponent - shift) (c :: cs)
    | some d =>
      let next := 10 * exponent + d
      if 2147483647 < next then
        if n ≠ 0 ∧ !small then stuckBefore .numberTooLarge cs
        else ofDecimal negative 0 0 (cs.dropWhile isDigit)
      else readExponentDigits negative n shift small next cs

/-- Reads an exponent after its mark. -/
def readExponent (negative : Bool) (n : Nat) (shift : Int) (cs : List Char) :
    Except Stuck (Part Json) :=
  let (small, digits) := splitSign cs
  match digits with
  | [] => stuckAt .unfinishedValue []
  | c :: _ =>
    if isDigit c then readExponentDigits negative n shift small 0 digits
    else stuckAt .badNumber digits

/-- Reads what follows the integer digits of a number. -/
def readFraction (negative : Bool) (n : Nat) (digits cs : List Char) :
    Except Stuck (Part Json) :=
  match cs with
  | '.' :: rest =>
    let fraction := rest.takeWhile isDigit
    let after := rest.dropWhile isDigit
    if fraction = [] then
      match after with
      | [] => stuckAt .unfinishedValue []
      | _ :: _ => stuckAt .badNumber after
    else
      let n := digitsValue (digits ++ fraction)
      match after with
      | c :: rest =>
        if c = 'e' ∨ c = 'E' then readExponent negative n fraction.length rest
        else ofDecimal negative n (-fraction.length) after
      | [] => ofDecimal negative n (-fraction.length) after
  | c :: rest =>
    if c = 'e' ∨ c = 'E' then readExponent negative n 0 rest
    else match ofDigits? negative n with
      | some j => .ok (j, cs)
      | none => stuckBefore .numberTooLarge cs
  | [] =>
    match ofDigits? negative n with
    | some j => .ok (j, [])
    | none => stuckBefore .numberTooLarge []

/-- Reads a number after its sign. -/
def readNumber (negative : Bool) (cs : List Char) : Except Stuck (Part Json) :=
  match cs with
  | [] => stuckAt .unfinishedValue []
  | c :: rest =>
    if c = '0' then
      match rest with
      | d :: _ => if isDigit d then stuckAt .badNumber rest else readFraction negative 0 ['0'] rest
      | [] => readFraction negative 0 ['0'] rest
    else if isDigit c then
      let digits := cs.takeWhile isDigit
      readFraction negative (digitsValue digits) digits (cs.dropWhile isDigit)
    else stuckAt .badNumber cs

/-! ## Strings -/

/-- The number that four hexadecimal digits write. -/
def hexQuad? (a b c d : Char) : Option Nat := do
  let a ← hexValue? a
  let b ← hexValue? b
  let c ← hexValue? c
  let d ← hexValue? d
  pure (((a * 16 + b) * 16 + c) * 16 + d)

/-- Reads four hexadecimal digits. -/
def readHexQuad (cs : List Char) : Except Stuck (Part Nat) :=
  if byteLength cs < 4 then stuckAt .unfinishedString []
  else match cs with
    | a :: b :: c :: d :: rest =>
      match hexQuad? a b c d with
      | some n => .ok (n, rest)
      | none => .error ⟨.badEscape, byteLength cs - 4⟩
    | _ => .error ⟨.badEscape, byteLength cs - 4⟩

/-- Reads the escape of a character by its code units, after `\u`. A leading
surrogate has to be followed by the escape of a trailing one. -/
def readUnicode (cs : List Char) : Except Stuck (Part Char) := do
  let (n, rest) ← readHexQuad cs
  if 0xdc00 ≤ n ∧ n ≤ 0xdfff then stuckBefore .unpairedSurrogate rest
  else if n < 0xd800 ∨ 0xdbff < n then pure (Char.ofNat n, rest)
  else match rest with
    | [] => stuckAt .unfinishedString []
    | '\\' :: [] => stuckAt .unfinishedString []
    | '\\' :: 'u' :: rest => do
      let (m, rest) ← readHexQuad rest
      if m < 0xdc00 ∨ 0xdfff < m then stuckBefore .unpairedSurrogate rest
      else pure (Char.ofNat (0x10000 + (n - 0xd800) * 0x400 + (m - 0xdc00)), rest)
    | '\\' :: rest => stuckAt .unfinishedPair rest
    | rest => stuckAt .unfinishedPair rest

/-- Reads an escape after its backslash. -/
def readEscape (cs : List Char) : Except Stuck (Part Char) :=
  match cs with
  | [] => stuckAt .unfinishedString []
  | c :: rest =>
    if c = '"' then .ok ('"', rest)
    else if c = '\\' then .ok ('\\', rest)
    else if c = '/' then .ok ('/', rest)
    else if c = 'b' then .ok ('\x08', rest)
    else if c = 'f' then .ok ('\x0c', rest)
    else if c = 'n' then .ok ('\n', rest)
    else if c = 'r' then .ok ('\r', rest)
    else if c = 't' then .ok ('\t', rest)
    else if c = 'u' then readUnicode rest
    else stuckAt .badEscape cs

/-- Reads characters up to the closing quote. Every round takes a character, so
`fuel` above the length of the text is enough. -/
def readChars : (fuel : Nat) → List Char → Except Stuck (Part (List Char))
  | 0, cs => stuckAt .unfinishedString cs
  | _ + 1, [] => stuckAt .unfinishedString []
  | fuel + 1, c :: cs =>
    if c = '"' then .ok ([], cs)
    else if c = '\\' then do
      let (c, cs) ← readEscape cs
      let (rest, cs) ← readChars fuel cs
      pure (c :: rest, cs)
    else if c.toNat < 0x20 then stuckAt .controlCharacter (c :: cs)
    else do
      let (rest, cs) ← readChars fuel cs
      pure (c :: rest, cs)

/-- Reads a string after its opening quote. -/
def readString (cs : List Char) : Except Stuck (Part String) := do
  let (s, cs) ← readChars (cs.length + 1) cs
  pure (String.ofList s, cs)

/-! ## Values -/

/-- One more than how deep lists and objects may nest. -/
def maxNesting : Nat := 128

mutual

/-- Reads a value. `depth` is how many more levels may open, plus one. -/
def readValue : (fuel depth : Nat) → List Char → Except Stuck (Part Json)
  | 0, _, cs => stuckAt .expectedValue cs
  | fuel + 1, depth, cs =>
    match skipSpace cs with
    | [] => stuckAt .unfinishedValue []
    | c :: rest =>
      if c = 'n' then readWord .null ['u', 'l', 'l'] rest
      else if c = 't' then readWord (.bool true) ['r', 'u', 'e'] rest
      else if c = 'f' then readWord (.bool false) ['a', 'l', 's', 'e'] rest
      else if c = '-' then readNumber true rest
      else if isDigit c then readNumber false (c :: rest)
      else if c = '"' then do
        let (s, cs) ← readString rest
        pure (.text s, cs)
      else if c = '[' then
        if depth ≤ 1 then stuckAt .tooDeep (c :: rest)
        else do
          let (items, cs) ← readItems fuel (depth - 1) true rest
          pure (.list items, cs)
      else if c = '\x7b' then
        if depth ≤ 1 then stuckAt .tooDeep (c :: rest)
        else do
          let (fields, cs) ← readFields fuel (depth - 1) true [] rest
          pure (.object fields, cs)
      else stuckAt .expectedValue (c :: rest)

/-- Reads the items of a list up to its closing bracket. `first` holds as long
as none has been read. -/
def readItems : (fuel depth : Nat) → (first : Bool) → List Char → Except Stuck (Part (List Json))
  | 0, _, _, cs => stuckAt .unfinishedList cs
  | fuel + 1, depth, first, cs =>
    match skipSpace cs with
    | [] => stuckAt .unfinishedList []
    | c :: rest =>
      if c = ']' then .ok ([], rest)
      else if first then do
        let (j, cs) ← readValue fuel depth (c :: rest)
        let (items, cs) ← readItems fuel depth false cs
        pure (j :: items, cs)
      else if c = ',' then
        match skipSpace rest with
        | [] => stuckAt .unfinishedValue []
        | d :: rest =>
          if d = ']' then stuckAt .trailingComma (d :: rest)
          else do
            let (j, cs) ← readValue fuel depth (d :: rest)
            let (items, cs) ← readItems fuel depth false cs
            pure (j :: items, cs)
      else stuckAt .expectedCommaOrBracket (c :: rest)

/-- Reads the fields of an object up to its closing brace, adding them to
those read before. -/
def readFields : (fuel depth : Nat) → (first : Bool) → Fields Json → List Char →
    Except Stuck (Part (Fields Json))
  | 0, _, _, _, cs => stuckAt .unfinishedObject cs
  | fuel + 1, depth, first, fields, cs =>
    match skipSpace cs with
    | [] => stuckAt .unfinishedObject []
    | c :: rest =>
      if c = '\x7d' then .ok (fields, rest)
      else if first then
        if c = '"' then readField fuel depth fields rest
        else stuckAt .keyNotString (c :: rest)
      else if c = ',' then
        match skipSpace rest with
        | [] => stuckAt .unfinishedValue []
        | d :: rest =>
          if d = '"' then readField fuel depth fields rest
          else if d = '\x7d' then stuckAt .trailingComma (d :: rest)
          else stuckAt .keyNotString (d :: rest)
      else stuckAt .expectedCommaOrBrace (c :: rest)

/-- Reads a field after the opening quote of its name, and the fields after it. -/
def readField : (fuel depth : Nat) → Fields Json → List Char → Except Stuck (Part (Fields Json))
  | 0, _, _, cs => stuckAt .unfinishedObject cs
  | fuel + 1, depth, fields, cs => do
    let (name, cs) ← readString cs
    match skipSpace cs with
    | [] => stuckAt .unfinishedObject []
    | c :: rest =>
      if c = ':' then do
        let (j, cs) ← readValue fuel depth rest
        readFields fuel depth false (Fields.put name j fields) cs
      else stuckAt .expectedColon (c :: rest)

end

/-- Reads a text that holds one value and blanks around it. -/
def readWhole (cs : List Char) : Except Stuck Json := do
  let (j, rest) ← readValue (3 * cs.length + 3) maxNesting cs
  match skipSpace rest with
  | [] => pure j
  | c :: rest => stuckAt .trailingText (c :: rest)

/-- Reads a whole text. -/
def parse (text : String) : Except Fault Json :=
  let cs := text.toList
  match readWhole cs with
  | .ok j => .ok j
  | .error stuck => .error ⟨stuck.cause, .ofOffset text (byteLength cs - stuck.unread)⟩

end Json

end Crossing
