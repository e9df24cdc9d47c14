import JumpCode.Text.Decimal

/-!
# Log records

What the program does is told in log records of five levels.  A threshold decides which of them are
shown.
-/

namespace JumpCode

inductive LogLevel where
  | error | warn | info | debug | trace
  deriving DecidableEq, Repr

namespace LogLevel

def name : LogLevel → String
  | error => "ERROR"
  | warn => "WARN"
  | info => "INFO"
  | debug => "DEBUG"
  | trace => "TRACE"

def rank : LogLevel → Nat
  | error => 1
  | warn => 2
  | info => 3
  | debug => 4
  | trace => 5

end LogLevel

structure LogRecord where
  level : LogLevel
  text : String
  deriving DecidableEq, Repr

namespace LogRecord

/-- The record in a line, the level filled up to five characters. -/
def line (r : LogRecord) : String := Text.padRight ' ' 5 r.level.name ++ " " ++ r.text

/-- The records that give no more detail than the threshold. -/
def upTo (threshold : LogLevel) (rs : List LogRecord) : List LogRecord :=
  rs.filter fun r => r.level.rank ≤ threshold.rank

end LogRecord

end JumpCode
