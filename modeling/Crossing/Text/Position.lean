/-!
# Positions in text

Where in a text an error is, as a line and a column. Lines are counted from
one; a column is the number of bytes, in UTF-8, since the last line break.
-/

namespace Crossing

/-- The number of bytes of a text in UTF-8. -/
def byteLength (cs : List Char) : Nat := cs.foldr (fun c n => c.utf8Size + n) 0

/-- A line and a column. -/
structure Position where
  line : Nat
  column : Nat
deriving DecidableEq, Repr

namespace Position

/-- Moves over one byte-counted character. -/
def step (p : Position) (c : Char) : Position :=
  if c = '\n' then ⟨p.line + 1, 0⟩ else ⟨p.line, p.column + c.utf8Size⟩

/-- The position after the first `offset` bytes of a text. A character that the
offset cuts counts with the bytes before the cut. -/
def after : List Char → Nat → Position → Position
  | [], _, p => p
  | c :: cs, offset, p =>
    if offset = 0 then p
    else if offset < c.utf8Size then ⟨p.line, p.column + offset⟩
    else after cs (offset - c.utf8Size) (p.step c)

/-- The position after the first `offset` bytes of `text`. -/
def ofOffset (text : String) (offset : Nat) : Position :=
  after text.toList offset ⟨1, 0⟩

end Position

end Crossing
