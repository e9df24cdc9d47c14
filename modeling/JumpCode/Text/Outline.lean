/-!
# Outlines

An outline shows a tree one item to a line.  A group puts its items, each followed by a comma, on
lines of their own between its opening and closing marks, four columns further in.
-/

namespace JumpCode.Text

inductive Outline where
  /-- A single piece of text. -/
  | leaf (text : String)
  /-- A value under a name. -/
  | named (name : String) (value : Outline)
  /-- Items between two marks. -/
  | group (opening closing : String) (items : List Outline)

namespace Outline

def record (name : String) (fields : List Outline) : Outline :=
  .group (name ++ " \x7b") "\x7d" fields

def wrapped (name : String) (value : Outline) : Outline := .group (name ++ "(") ")" [value]

/-- A list, on one line if it is empty. -/
def list : List Outline → Outline
  | [] => .leaf "[]"
  | items => .group "[" "]" items

def optional : Option Outline → Outline
  | none => .leaf "None"
  | some x => wrapped "Some" x

def prefixFirst (s : String) : List String → List String
  | [] => [s]
  | l :: ls => (s ++ l) :: ls

def suffixLast (s : String) : List String → List String
  | [] => [s]
  | [l] => [l ++ s]
  | l :: ls => l :: suffixLast s ls

mutual

def lines : Outline → List String
  | .leaf s => [s]
  | .named n v => prefixFirst (n ++ ": ") v.lines
  | .group o c items => o :: itemLines items ++ [c]

def itemLines : List Outline → List String
  | [] => []
  | x :: xs => (suffixLast "," x.lines).map ("    " ++ ·) ++ itemLines xs

end

def render (x : Outline) : String := String.intercalate "\n" x.lines

end Outline

end JumpCode.Text
