import JumpCode.Source.Position

/-!
# Cursors

A `Cursor` is a position together with the text that is still to be read.  The two move together:
`next?` and `accept?` drop characters from the text and advance the position over exactly those.
-/

namespace JumpCode

/-- A place in a text and the characters after it. -/
structure Cursor where
  position : Position
  rest : List Char
  deriving DecidableEq, Repr

namespace Cursor

def ofString (s : String) : Cursor := ⟨.start, s.toList⟩

def next? (p : Char → Bool) (c : Cursor) : Option Cursor :=
  match c.rest with
  | [] => none
  | x :: xs => if p x then some ⟨c.position.advance x, xs⟩ else none

def accept? : List Char → Cursor → Option Cursor
  | [], c => some c
  | x :: xs, c => (c.next? (· == x)).bind (accept? xs)

/-- The leading characters of a text that fill at most `n` bytes. -/
def takeBytes : Nat → List Char → List Char
  | _, [] => []
  | n, x :: xs => if x.utf8Size ≤ n then x :: takeBytes (n - x.utf8Size) xs else []

/-- The text between two cursors of one script, the first not after the second. -/
def textTo (a b : Cursor) : String :=
  String.ofList (takeBytes (b.position.byte - a.position.byte) a.rest)

/-- The origin of what was read between two cursors of the script called `file`. -/
def originTo (file : String) (a b : Cursor) : Origin :=
  let start := a.position.toLocation file
  ⟨some start, some ⟨start, b.position.toLocation file⟩⟩

end Cursor

end JumpCode
