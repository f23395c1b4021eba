import BemSheet.Text

/-!
Places in a text, as a line and a column.

A `Cursor` is moved over a text character by character, so the place after `a ++ b` is reached by
moving over `a` and then over `b` (`Cursor.through_append`).
-/

namespace BemSheet

/-- A line and a column, both counted from one. -/
structure Location where
  line : Nat
  column : Nat
  deriving DecidableEq, Repr

/-- Places are ordered by line, then by column. -/
def Location.compare (a b : Location) : Ordering :=
  (Ord.compare a.line b.line).then (Ord.compare a.column b.column)

instance : Ord Location := ⟨Location.compare⟩

/-- A place, and whether the character before it is a carriage return, with which a line feed makes
one line break. -/
structure Cursor where
  location : Location
  afterReturn : Bool
  deriving DecidableEq, Repr

namespace Cursor

/-- The place of the first character of a text. -/
def start : Cursor := ⟨⟨1, 1⟩, false⟩

/-- Columns count UTF-16 code units: two for a character outside the basic plane. -/
def width (c : Char) : Nat := if c.toNat < 0x10000 then 1 else 2

/-- A line ends at a line feed, a form feed, a carriage return, or a carriage return with its line
feed. -/
def step (p : Cursor) (c : Char) : Cursor :=
  let nextLine : Location := ⟨p.location.line + 1, 1⟩
  if c = '\n' then
    if p.afterReturn then ⟨p.location, false⟩ else ⟨nextLine, false⟩
  else if c = '\x0c' then ⟨nextLine, false⟩
  else if c = '\r' then ⟨nextLine, true⟩
  else ⟨⟨p.location.line, p.location.column + width c⟩, false⟩

def through (p : Cursor) (s : Text) : Cursor := s.foldl step p

@[simp] theorem through_append (p : Cursor) (a b : Text) :
    p.through (a ++ b) = (p.through a).through b :=
  List.foldl_append

end Cursor

end BemSheet
