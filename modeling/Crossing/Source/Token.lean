import Crossing.Text.Blank

/-!
# Tokens

Source text of the host is cut into tokens: brackets, quote marks, lone dots,
strings and atoms. Blanks and comments separate tokens and are dropped. A
string that cannot be read ends the tokens with what is wrong with it.

- `Token.scan` cuts a text;
- `ReadError` lists what can be wrong with source text.
-/

namespace Crossing

/-! ## Errors -/

/-- What source text was inside of when it ended. -/
inductive Unfinished where
  | form
  | list
  | dottedList
  | vector
  | string
deriving DecidableEq, Repr

def Unfinished.word : Unfinished → String
  | .form => "form"
  | .list => "list"
  | .dottedList => "dotted list"
  | .vector => "vector"
  | .string => "string"

/-- What is wrong with source text. -/
inductive ReadError where
  | unfinished (inside : Unfinished)
  | unexpected (c : Char)
  | badEscape (c : Char)
deriving DecidableEq, Repr

def ReadError.message : ReadError → String
  | .unfinished inside => "end of input inside " ++ inside.word
  | .unexpected c => "unexpected `" ++ String.ofList [c] ++ "`"
  | .badEscape c => "invalid escape `\\" ++ String.ofList [c] ++ "`"

/-! ## Tokens -/

/-- A token of source text. A `dot` is a dot that stands alone; what it means
depends on where it stands. -/
inductive Token where
  | opening
  | closing
  | openingVector
  | closingVector
  | quoteMark
  | dot
  | text (s : String)
  | atom (first : Char) (rest : List Char)
  | bad (e : ReadError)
deriving DecidableEq, Repr

namespace Token

/-- The character that the token starts with. -/
def firstChar : Token → Char
  | .opening => '('
  | .closing => ')'
  | .openingVector => '['
  | .closingVector => ']'
  | .quoteMark => '\''
  | .dot => '.'
  | .text _ => '"'
  | .atom first _ => first
  | .bad _ => '"'

/-- Whether the character ends an atom. -/
def isDelimiter (c : Char) : Bool :=
  isBlank c || c == '(' || c == ')' || c == '[' || c == ']' || c == '"' || c == '\'' || c == ';'

/-- Whether a dot before `cs` stands alone. -/
def standsAlone : List Char → Bool
  | [] => true
  | c :: _ => isBlank c || c == '(' || c == ')'

/-- The character that an escape stands for. -/
def unescape? (c : Char) : Option Char :=
  if c = 'n' then some '\n'
  else if c = 't' then some '\t'
  else if c = '"' then some '"'
  else if c = '\\' then some '\\'
  else none

/-- Reads a string after its opening quote. -/
def scanString : List Char → Except ReadError (List Char × List Char)
  | [] => .error (.unfinished .string)
  | [c] => if c = '"' then .ok ([], []) else .error (.unfinished .string)
  | c :: d :: cs =>
    if c = '"' then .ok ([], d :: cs)
    else if c = '\\' then
      match unescape? d with
      | none => .error (.badEscape d)
      | some e => match scanString cs with
        | .ok (s, rest) => .ok (e :: s, rest)
        | .error e => .error e
    else match scanString (d :: cs) with
      | .ok (s, rest) => .ok (c :: s, rest)
      | .error e => .error e

/-- The text after a comment. -/
def skipComment (cs : List Char) : List Char := (cs.dropWhile (· ≠ '\n')).drop 1

/-- Cuts text into tokens. Every round takes a character, so `fuel` above the
length of the text is enough. -/
def scanWithin : (fuel : Nat) → List Char → List Token
  | 0, _ => []
  | _ + 1, [] => []
  | fuel + 1, c :: cs =>
    if isBlank c then scanWithin fuel cs
    else if c = ';' then scanWithin fuel (skipComment cs)
    else if c = '(' then .opening :: scanWithin fuel cs
    else if c = ')' then .closing :: scanWithin fuel cs
    else if c = '[' then .openingVector :: scanWithin fuel cs
    else if c = ']' then .closingVector :: scanWithin fuel cs
    else if c = '\'' then .quoteMark :: scanWithin fuel cs
    else if c = '"' then
      match scanString cs with
      | .ok (s, rest) => .text (String.ofList s) :: scanWithin fuel rest
      | .error e => [.bad e]
    else if c = '.' ∧ standsAlone cs then .dot :: scanWithin fuel cs
    else .atom c (cs.takeWhile fun d => !isDelimiter d) ::
      scanWithin fuel (cs.dropWhile fun d => !isDelimiter d)

/-- The tokens of a text. -/
def scan (cs : List Char) : List Token := scanWithin (cs.length + 1) cs

end Token

end Crossing
