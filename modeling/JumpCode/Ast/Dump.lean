import JumpCode.Ast.Basic
import JumpCode.Text.Decimal
import JumpCode.Text.Outline
import JumpCode.Text.Quoted

/-!
# Showing a program as an outline

Every node is a record of its parts, in a fixed order, with names and file names quoted.
-/

namespace JumpCode

open Text

namespace Dump

def textField (name value : String) : Outline := .named name (.leaf (quoted value))

def numberField (name : String) (n : Nat) : Outline := .named name (.leaf (decimal n))

def location (l : Location) : Outline :=
  .record "Location" [textField "file" l.file, numberField "line" l.line, numberField "column" l.column]

def span (s : Span) : Outline :=
  .record "Span" [.named "start" (location s.start), .named "end" (location s.stop)]

/-- The fields with which every node ends. -/
def originFields (o : Origin) : List Outline :=
  [.named "location" (.optional (o.location.map location)), .named "span" (.optional (o.span.map span))]

def stmtId (i : StmtId) : Outline := .wrapped "StmtId" (.leaf (decimal i.number))

def unaryOp : UnaryOp → String
  | .minus => "Minus"
  | .not => "Not"

def binaryOp : BinaryOp → String
  | .eq => "Eq"
  | .ne => "Ne"
  | .lt => "Lt"
  | .le => "Le"
  | .gt => "Gt"
  | .ge => "Ge"
  | .add => "Add"
  | .sub => "Sub"
  | .mul => "Mul"
  | .div => "Div"
  | .mod => "Mod"

def exprNode (o : Origin) (kind : String) (fields : List Outline) : Outline :=
  .record "Expr" (.named "kind" (.record kind fields) :: originFields o)

def stmtNode (m : Mark) (kind : String) (fields : List Outline) : Outline :=
  .record "Stmt"
    (.named "id" (stmtId m.id) :: .named "kind" (.record kind fields) :: originFields m.origin)

mutual

def expr : Expr → Outline
  | .int o n => exprNode o "Integer" [.named "value" (.leaf (signedDecimal n.toInt))]
  | .bool o b => exprNode o "Bool" [.named "value" (.leaf (if b then "true" else "false"))]
  | .ident o name => exprNode o "Identifier" [textField "name" name]
  | .unary o op e =>
    exprNode o "Unary" [.named "op" (.leaf (unaryOp op)), .named "expr" (expr e)]
  | .binary o op l r =>
    exprNode o "Binary"
      [.named "left" (expr l), .named "op" (.leaf (binaryOp op)), .named "right" (expr r)]
  | .assign o name e => exprNode o "Assign" [textField "name" name, .named "value" (expr e)]
  | .call o callee args =>
    exprNode o "Call" [textField "callee" callee, .named "args" (.list (exprs args))]

def exprs : List Expr → List Outline
  | [] => []
  | e :: es => expr e :: exprs es

end

mutual

def stmt : Stmt → Outline
  | .block m body => stmtNode m "Block" [.named "statements" (.list (stmts body))]
  | .eval m e => stmtNode m "Expr" [.named "expr" (expr e)]
  | .ret m e => stmtNode m "Return" [.named "value" (.optional (e.map expr))]
  | .ifThen m c t =>
    stmtNode m "If"
      [.named "condition" (expr c), .named "then_branch" (stmt t),
       .named "else_branch" (.optional none)]
  | .ifElse m c t e =>
    stmtNode m "If"
      [.named "condition" (expr c), .named "then_branch" (stmt t),
       .named "else_branch" (.optional (some (stmt e)))]
  | .whileLoop m c body =>
    stmtNode m "While" [.named "condition" (expr c), .named "body" (stmt body)]
  | .breakLoop m loop =>
    stmtNode m "Break" [.named "enclosing_loop" (.optional (loop.map stmtId))]

def stmts : List Stmt → List Outline
  | [] => []
  | s :: ss => stmt s :: stmts ss

end

def function (f : Function) : Outline :=
  .record "Function"
    ([textField "name" f.name, .named "params" (.list (f.params.map fun p => .leaf (quoted p))),
      .named "body" (stmt f.body)] ++ originFields f.origin)

end Dump

def Program.dump (p : Program) : String :=
  (Outline.record "Program" [.named "functions" (.list (p.functions.map Dump.function))]).render

end JumpCode
