import JumpCode.Operator
import JumpCode.Source.Position

/-!
# Programs as trees

A program is a list of functions, a function has a statement as its body, and statements hold
expressions.  Every node remembers its origin in the script, if it has one.

Statements also have a number of their own.  A break names the loop it leaves by that loop's
number: a tree fresh from the reader leaves the name open, and linking fills it in.
-/

namespace JumpCode

/-- The number of a statement. -/
structure StmtId where
  number : Nat
  deriving DecidableEq, Repr

instance : ToString StmtId where
  toString i := s!"#{i.number}"

inductive Expr where
  | int (origin : Origin) (value : Int64)
  | bool (origin : Origin) (value : Bool)
  | ident (origin : Origin) (name : String)
  | unary (origin : Origin) (op : UnaryOp) (operand : Expr)
  | binary (origin : Origin) (op : BinaryOp) (left right : Expr)
  | assign (origin : Origin) (name : String) (value : Expr)
  | call (origin : Origin) (callee : String) (args : List Expr)

def Expr.origin : Expr → Origin
  | .int o _ | .bool o _ | .ident o _ | .unary o _ _ | .binary o _ _ _ | .assign o _ _
  | .call o _ _ => o

/-- What every statement carries: its number and its origin. -/
structure Mark where
  id : StmtId
  origin : Origin
  deriving DecidableEq, Repr

inductive Stmt where
  | block (mark : Mark) (body : List Stmt)
  | eval (mark : Mark) (expr : Expr)
  | ret (mark : Mark) (value : Option Expr)
  | ifThen (mark : Mark) (cond : Expr) (thenBranch : Stmt)
  | ifElse (mark : Mark) (cond : Expr) (thenBranch elseBranch : Stmt)
  | whileLoop (mark : Mark) (cond : Expr) (body : Stmt)
  /-- Leave the loop with the given number. -/
  | breakLoop (mark : Mark) (loop : Option StmtId)

namespace Stmt

def mark : Stmt → Mark
  | .block m _ | .eval m _ | .ret m _ | .ifThen m _ _ | .ifElse m _ _ _ | .whileLoop m _ _
  | .breakLoop m _ => m

def id (s : Stmt) : StmtId := s.mark.id

def origin (s : Stmt) : Origin := s.mark.origin

/-- What kind of statement it is, for a reader. -/
def kindName : Stmt → String
  | .block _ _ => "block"
  | .eval _ _ => "expression statement"
  | .ret _ _ => "return"
  | .ifThen _ _ _ | .ifElse _ _ _ _ => "if"
  | .whileLoop _ _ _ => "while"
  | .breakLoop _ _ => "break"

end Stmt

structure Function where
  name : String
  params : List String
  body : Stmt
  origin : Origin

structure Program where
  functions : List Function

def Program.find? (p : Program) (name : String) : Option Function :=
  p.functions.find? (·.name == name)

end JumpCode
