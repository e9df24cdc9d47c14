import JumpCode.Text.Decimal

/-!
# JSON text

The part of JSON that code listings use: integers, booleans, strings, arrays and objects with their
members in a fixed order.  A value is written either on one line without blanks, or one item to a
line with two columns for each level.
-/

namespace JumpCode.Text

inductive Json where
  | number (n : Int)
  | bool (b : Bool)
  | string (s : String)
  | array (items : List Json)
  | object (members : List (String × Json))

namespace Json

def stringChar (c : Char) : List Char :=
  if c = '"' ∨ c = '\\' then ['\\', c]
  else if c = '\x08' then ['\\', 'b']
  else if c = '\t' then ['\\', 't']
  else if c = '\n' then ['\\', 'n']
  else if c = '\x0c' then ['\\', 'f']
  else if c = '\r' then ['\\', 'r']
  else if c.toNat < 0x20 then
    ['\\', 'u', '0', '0', (c.toNat / 16).digitChar, (c.toNat % 16).digitChar]
  else [c]

def stringText (s : String) : String :=
  String.ofList ('"' :: s.toList.flatMap stringChar ++ ['"'])

def boolText (b : Bool) : String := if b then "true" else "false"

mutual

def compact : Json → String
  | .number n => signedDecimal n
  | .bool b => boolText b
  | .string s => stringText s
  | .array xs => "[" ++ String.intercalate "," (compactItems xs) ++ "]"
  | .object ms => "\x7b" ++ String.intercalate "," (compactMembers ms) ++ "\x7d"

def compactItems : List Json → List String
  | [] => []
  | x :: xs => x.compact :: compactItems xs

def compactMembers : List (String × Json) → List String
  | [] => []
  | (k, v) :: ms => (stringText k ++ ":" ++ v.compact) :: compactMembers ms

end

/-- Items between two marks, one to a line, inside `depth` levels. -/
def spread (depth : Nat) (opening closing : String) : List String → String
  | [] => opening ++ closing
  | items =>
    let inner := "\n" ++ String.join (List.replicate (depth + 1) "  ")
    let outer := "\n" ++ String.join (List.replicate depth "  ")
    opening ++ inner ++ String.intercalate ("," ++ inner) items ++ outer ++ closing

mutual

/-- A value inside `depth` levels, one item to a line. -/
def pretty (depth : Nat) : Json → String
  | .number n => signedDecimal n
  | .bool b => boolText b
  | .string s => stringText s
  | .array xs => spread depth "[" "]" (prettyItems (depth + 1) xs)
  | .object ms => spread depth "\x7b" "\x7d" (prettyMembers (depth + 1) ms)

def prettyItems (depth : Nat) : List Json → List String
  | [] => []
  | x :: xs => x.pretty depth :: prettyItems depth xs

def prettyMembers (depth : Nat) : List (String × Json) → List String
  | [] => []
  | (k, v) :: ms => (stringText k ++ ": " ++ v.pretty depth) :: prettyMembers depth ms

end

end Json

end JumpCode.Text
