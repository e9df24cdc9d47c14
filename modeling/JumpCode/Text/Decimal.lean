/-!
# Decimal numerals

Numbers are written in base ten without leading zeros, or with as many as fill a given width.
Reading back is core's `Nat.ofDigitChars`, which undoes `Nat.toDigits`.
-/

namespace JumpCode.Text

def decimal (n : Nat) : String := n.repr

def signedDecimal : Int → String
  | .ofNat n => decimal n
  | .negSucc n => "-" ++ decimal (n + 1)

/-- `s` on the right of at least `width` characters, the rest filled with `fill`. -/
def padLeft (fill : Char) (width : Nat) (s : String) : String :=
  String.ofList (List.replicate (width - s.length) fill) ++ s

/-- `s` on the left of at least `width` characters, the rest filled with `fill`. -/
def padRight (fill : Char) (width : Nat) (s : String) : String :=
  s ++ String.ofList (List.replicate (width - s.length) fill)

/-- The place of an instruction in a listing: four digits, or more if it needs them. -/
def opIndex (n : Nat) : String := padLeft '0' 4 (decimal n)

/-- The value of a numeral in base ten. -/
def ofDigits (digits : List Char) : Nat := Nat.ofDigitChars 10 digits 0

theorem ofDigits_decimal (n : Nat) : ofDigits (decimal n).toList = n := by
  simp [ofDigits, decimal]

/-- Read a whole text as a numeral in base ten. -/
def natural? (s : List Char) : Option Nat :=
  if s ≠ [] ∧ s.all Char.isDigit then some (ofDigits s) else none

theorem natural?_eq_some {s : List Char} {n : Nat} :
    natural? s = some n ↔ s ≠ [] ∧ s.all Char.isDigit = true ∧ ofDigits s = n := by
  simp only [natural?, Option.ite_none_right_eq_some, Option.some.injEq, and_assoc]

/-- Read a whole text as a numeral in base ten after an optional plus sign. -/
def unsigned? : List Char → Option Nat
  | '+' :: s => natural? s
  | s => natural? s

/-- Read a whole text as a numeral in base ten after an optional sign. -/
def signed? : List Char → Option Int
  | '-' :: s => (natural? s).map fun n => -(n : Int)
  | s => (unsigned? s).map Int.ofNat

end JumpCode.Text
