import JumpCode.Operator
import JumpCode.Text.Json

/-!
# Values

A value is a 64-bit integer or a truth value.  Arithmetic and comparison read a truth value as 0 or
1; arithmetic wraps around, and division goes toward zero.  Dividing by zero has no result.
-/

namespace JumpCode

inductive Value where
  | int (n : Int64)
  | bool (b : Bool)
  deriving DecidableEq, Repr

namespace Value

/-- What a register or slot holds before anything is stored in it. -/
instance : Inhabited Value := ⟨.int 0⟩

/-- Whether a condition with this value fails. -/
def isZero : Value → Bool
  | .int n => n == 0
  | .bool b => !b

/-- The number that arithmetic and comparison see. -/
def toInt64 : Value → Int64
  | .int n => n
  | .bool b => if b then 1 else 0

def text : Value → String
  | .int n => Text.signedDecimal n.toInt
  | .bool b => Text.Json.boolText b

instance : ToString Value := ⟨text⟩

def toJson : Value → Text.Json
  | .int n => .object [("Int", .number n.toInt)]
  | .bool b => .object [("Bool", .bool b)]

end Value

namespace UnaryOp

def apply : UnaryOp → Value → Value
  | minus, v => .int (-v.toInt64)
  | not, v => .bool v.isZero

end UnaryOp

namespace BinaryOp

/-- The result of applying an operator to two numbers, if there is one. -/
def onInt64 : BinaryOp → Int64 → Int64 → Option Value
  | add, x, y => some (.int (x + y))
  | sub, x, y => some (.int (x - y))
  | mul, x, y => some (.int (x * y))
  | div, x, y => if y = 0 then none else some (.int (x / y))
  | mod, x, y => if y = 0 then none else some (.int (x % y))
  | eq, x, y => some (.bool (x == y))
  | ne, x, y => some (.bool (x != y))
  | lt, x, y => some (.bool (decide (x < y)))
  | le, x, y => some (.bool (decide (x ≤ y)))
  | gt, x, y => some (.bool (decide (y < x)))
  | ge, x, y => some (.bool (decide (y ≤ x)))

def apply (op : BinaryOp) (v w : Value) : Option Value := op.onInt64 v.toInt64 w.toInt64

end BinaryOp

end JumpCode
