/-!
# Places in a script

A `Position` is where reading has got to in a text: how many bytes lie before it, and the line and
column a reader would name.  Positions only move by `advance`, one character at a time, so the
position after a piece of text is determined by the position before it and the piece alone.

A `Location` names a point of a named script, a `Span` two such points, and an `Origin` is what a
tree node remembers of the text it was read from.  A tree built by hand has no origin.
-/

namespace JumpCode

/-- A place in a text.  Bytes are counted from 0, lines and columns from 1; a column is a
    character, whatever its width in bytes. -/
structure Position where
  byte : Nat
  line : Nat
  column : Nat
  deriving DecidableEq, Repr

namespace Position

def start : Position := ⟨0, 1, 1⟩

/-- The place right after the character `c`.  Only a line feed starts a new line. -/
def advance (p : Position) (c : Char) : Position :=
  if c = '\n' then ⟨p.byte + c.utf8Size, p.line + 1, 1⟩
  else ⟨p.byte + c.utf8Size, p.line, p.column + 1⟩

def advanceAll (p : Position) (cs : List Char) : Position := cs.foldl advance p

@[simp] theorem advanceAll_nil (p : Position) : p.advanceAll [] = p := rfl

@[simp] theorem advanceAll_cons (p : Position) (c : Char) (cs : List Char) :
    p.advanceAll (c :: cs) = (p.advance c).advanceAll cs := rfl

theorem advanceAll_append (p : Position) (cs ds : List Char) :
    p.advanceAll (cs ++ ds) = (p.advanceAll cs).advanceAll ds := by
  simp [advanceAll]

end Position

structure Location where
  file : String
  line : Nat
  column : Nat
  deriving DecidableEq, Repr

instance : ToString Location where
  toString l := s!"{l.file}:{l.line}:{l.column}"

/-- The stretch of a script between two points. -/
structure Span where
  start : Location
  stop : Location
  deriving DecidableEq, Repr

instance : ToString Span where
  toString s := s!"{s.start} - {s.stop}"

/-- Where a tree node comes from: the point to complain about and the stretch it covers. -/
structure Origin where
  location : Option Location
  span : Option Span
  deriving DecidableEq, Repr

namespace Origin

/-- The origin of a node that no text was read for. -/
def unknown : Origin := ⟨none, none⟩

end Origin

def Position.toLocation (p : Position) (file : String) : Location := ⟨file, p.line, p.column⟩

end JumpCode
