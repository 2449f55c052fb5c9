import Crossing.Source.Token
import Crossing.Number.Reading

/-!
# Forms

What source text says: numbers, strings, symbols by name, lists and vectors. A
form is read before anything is built from it.

- `Form.ofAtom` tells numbers from symbols;
- `Form.readAll` reads every form of a text. When it fails, it also tells which
  symbols were named before the error.
-/

namespace Crossing

/-- A form of source text. -/
inductive Form where
  | int (i : Fixnum)
  | float (x : Float)
  | text (s : String)
  | symbol (name : String)
  | list (items : List Form)
  | dotted (items : List Form) (last : Form)
  | vector (items : List Form)

namespace Form

/-- What an atom means. It is an integer if it reads as one, a float if it has a
point or an `e`, starts like a number and reads as one, and a symbol otherwise. -/
def ofAtom (first : Char) (rest : List Char) : Form :=
  let token := first :: rest
  match readFixnum? token with
  | some i => .int i
  | none =>
    if (token.contains '.' || token.contains 'e') && (isDigit first || first == '-') then
      match readFloat? token with
      | some x => .float x
      | none => .symbol (String.ofList token)
    else .symbol (String.ofList token)

/-! ## Names in forms -/

mutual

/-- The names of the symbols in a form, in reading order. -/
def names : Form → List String
  | .int _ => []
  | .float _ => []
  | .text _ => []
  | .symbol name => [name]
  | .list items => namesIn items
  | .dotted items last => namesIn items ++ names last
  | .vector items => namesIn items

/-- The names of the symbols in some forms. -/
def namesIn : List Form → List String
  | [] => []
  | f :: fs => names f ++ namesIn fs

end

/-! ## Reading -/

/-- An error, and the symbols that were named before it. -/
structure Halt where
  error : ReadError
  named : List String
deriving DecidableEq, Repr

/-- The halt with the symbols of a form that was read before. -/
def Halt.after (f : Form) (h : Halt) : Halt := ⟨h.error, f.names ++ h.named⟩

/-- A part that has been read, and the tokens after it. -/
abbrev Part (α : Type) := α × List Token

/-- A list of the items, with what stands after the dot if there is one. -/
def ofItems (items : List Form) : Option Form → Form
  | none => .list items
  | some last => .dotted items last

mutual

/-- Reads one form. Each token is looked at at most twice, so `fuel` above twice
their number is enough. -/
def readForm : (fuel : Nat) → List Token → Except Halt (Part Form)
  | 0, _ => .error ⟨.unfinished .form, []⟩
  | _ + 1, [] => .error ⟨.unfinished .form, []⟩
  | fuel + 1, token :: tokens =>
    match token with
    | .opening => do
      let ((items, last), tokens) ← readList fuel tokens
      pure (ofItems items last, tokens)
    | .openingVector => do
      let (items, tokens) ← readVector fuel tokens
      pure (.vector items, tokens)
    | .quoteMark => do
      let (f, tokens) ← readForm fuel tokens
      pure (.list [.symbol "quote", f], tokens)
    | .text s => .ok (.text s, tokens)
    | .closing => .error ⟨.unexpected ')', []⟩
    | .closingVector => .error ⟨.unexpected ']', []⟩
    | .dot => .ok (.symbol ".", tokens)
    | .atom first rest => .ok (ofAtom first rest, tokens)
    | .bad e => .error ⟨e, []⟩

/-- Reads the rest of a list, after its opening parenthesis or some of its
items: the items that follow and what stands after a dot. -/
def readList : (fuel : Nat) → List Token → Except Halt (Part (List Form × Option Form))
  | 0, _ => .error ⟨.unfinished .list, []⟩
  | _ + 1, [] => .error ⟨.unfinished .list, []⟩
  | fuel + 1, token :: tokens =>
    match token with
    | .closing => .ok (([], none), tokens)
    | .dot => do
      let (last, tokens) ← readForm fuel tokens
      match tokens with
      | [] => .error ⟨.unfinished .dottedList, last.names⟩
      | .closing :: tokens => .ok (([], some last), tokens)
      | token :: _ => .error ⟨.unexpected token.firstChar, last.names⟩
    | _ => do
      let (f, tokens) ← readForm fuel (token :: tokens)
      match readList fuel tokens with
      | .error h => .error (h.after f)
      | .ok ((items, last), tokens) => .ok ((f :: items, last), tokens)

/-- Reads the rest of a vector. -/
def readVector : (fuel : Nat) → List Token → Except Halt (Part (List Form))
  | 0, _ => .error ⟨.unfinished .vector, []⟩
  | _ + 1, [] => .error ⟨.unfinished .vector, []⟩
  | fuel + 1, token :: tokens =>
    match token with
    | .closingVector => .ok ([], tokens)
    | _ => do
      let (f, tokens) ← readForm fuel (token :: tokens)
      match readVector fuel tokens with
      | .error h => .error (h.after f)
      | .ok (items, tokens) => .ok (f :: items, tokens)

end

/-- Reads forms up to the end of the tokens, at most `count` of them. -/
def readForms : (count : Nat) → List Token → Except Halt (List Form)
  | 0, _ => .ok []
  | _ + 1, [] => .ok []
  | count + 1, token :: tokens => do
    let (f, rest) ← readForm (2 * tokens.length + 3) (token :: tokens)
    match readForms count rest with
    | .error h => .error (h.after f)
    | .ok fs => .ok (f :: fs)

/-- Reads every form of a text. -/
def readAll (text : String) : Except Halt (List Form) :=
  let tokens := Token.scan text.toList
  readForms (tokens.length + 1) tokens

end Form

end Crossing
