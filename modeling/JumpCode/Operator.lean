/-!
# Operators

The operators of expressions.  The instructions that lowered code computes with are the same ones,
so both sides share these types.
-/

namespace JumpCode

inductive UnaryOp where
  | minus | not
  deriving DecidableEq, Repr

namespace UnaryOp

def symbol : UnaryOp → String
  | minus => "-"
  | not => "!"

def ofSymbol? (s : String) : Option UnaryOp := [minus, not].find? (·.symbol == s)

end UnaryOp

inductive BinaryOp where
  | eq | ne | lt | le | gt | ge | add | sub | mul | div | mod
  deriving DecidableEq, Repr

namespace BinaryOp

def all : List BinaryOp := [eq, ne, lt, le, gt, ge, add, sub, mul, div, mod]

def symbol : BinaryOp → String
  | eq => "=="
  | ne => "!="
  | lt => "<"
  | le => "<="
  | gt => ">"
  | ge => ">="
  | add => "+"
  | sub => "-"
  | mul => "*"
  | div => "/"
  | mod => "%"

def ofSymbol? (s : String) : Option BinaryOp := all.find? (·.symbol == s)

end BinaryOp

end JumpCode
