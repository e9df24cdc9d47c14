import JumpCode.Ast.Basic

/-!
# Breaks and their loops

A break leaves the innermost loop around it.  `Stmt.link` writes the number of that loop into the
break and touches nothing else; a break without a loop around it keeps what it had.
`Stmt.strayBreaks` lists the marks of those breaks in the order of the tree.

Both are functions of the innermost loop around the statement they are applied to.
-/

namespace JumpCode.Stmt

mutual

/-- Link every break of a statement to the innermost loop around it. -/
def link (loop : Option StmtId) : Stmt → Stmt
  | .block m body => .block m (linkAll loop body)
  | .eval m e => .eval m e
  | .ret m e => .ret m e
  | .ifThen m c t => .ifThen m c (t.link loop)
  | .ifElse m c t e => .ifElse m c (t.link loop) (e.link loop)
  | .whileLoop m c body => .whileLoop m c (body.link (some m.id))
  | .breakLoop m old => .breakLoop m (loop <|> old)

def linkAll (loop : Option StmtId) : List Stmt → List Stmt
  | [] => []
  | s :: ss => s.link loop :: linkAll loop ss

end

mutual

/-- The breaks of a statement that no loop encloses, when `inLoop` tells whether one encloses the
    statement. -/
def strayBreaks (inLoop : Bool) : Stmt → List Mark
  | .block _ body => strayBreaksAll inLoop body
  | .eval _ _ => []
  | .ret _ _ => []
  | .ifThen _ _ t => t.strayBreaks inLoop
  | .ifElse _ _ t e => t.strayBreaks inLoop ++ e.strayBreaks inLoop
  | .whileLoop _ _ body => body.strayBreaks true
  | .breakLoop m _ => if inLoop then [] else [m]

def strayBreaksAll (inLoop : Bool) : List Stmt → List Mark
  | [] => []
  | s :: ss => s.strayBreaks inLoop ++ strayBreaksAll inLoop ss

end

mutual

/-- The breaks of a statement with the loops they name, in the order of the tree. -/
def breaks : Stmt → List (StmtId × Option StmtId)
  | .block _ body => breaksAll body
  | .eval _ _ => []
  | .ret _ _ => []
  | .ifThen _ _ t => t.breaks
  | .ifElse _ _ t e => t.breaks ++ e.breaks
  | .whileLoop _ _ body => body.breaks
  | .breakLoop m loop => [(m.id, loop)]

def breaksAll : List Stmt → List (StmtId × Option StmtId)
  | [] => []
  | s :: ss => s.breaks ++ breaksAll ss

end

end JumpCode.Stmt
