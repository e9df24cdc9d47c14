import JumpCode.Lowering.Builder
import JumpCode.Lowering.Context

/-!
# Lowering expressions

The code of an expression leaves its value in a register, which the step returns.  Operands and
arguments are computed from left to right.  An assignment gives its name a slot only after its value
has been computed, and its own value is in the register of that one.
-/

namespace JumpCode.Expr

mutual

def lower (ctx : Context) : Expr → Lower Reg
  | .int _ n => Lower.emitTo (.const · (.int n))
  | .bool _ b => Lower.emitTo (.const · (.bool b))
  | .ident o name => do
    match (← get).slot? name with
    | none => throw (.ofKind (.unknownIdentifier name) o)
    | some i => Lower.emitTo (.load · i)
  | .unary _ op e => do
    let src ← e.lower ctx
    Lower.emitTo (.unary op · src)
  | .binary _ op l r => do
    let left ← l.lower ctx
    let right ← r.lower ctx
    Lower.emitTo (.binary op · left right)
  | .assign _ name e => do
    let src ← e.lower ctx
    let i ← Lower.slotFor name
    Lower.emit (.store src i)
    return src
  | .call o callee args =>
    match ctx.find? callee with
    | none => throw (.ofKind (.unknownFunction callee) o)
    | some sig =>
      if sig.arity = args.length then do
        let regs ← lowerAll ctx args
        Lower.emitTo (.call · callee regs)
      else throw (.ofKind (.arityMismatch callee sig.arity args.length) o)

def lowerAll (ctx : Context) : List Expr → Lower (List Reg)
  | [] => return []
  | e :: es => do
    let r ← e.lower ctx
    let rs ← lowerAll ctx es
    return r :: rs

end

/-- Append code that stands in for an expression: the constant zero, whatever the expression is. -/
def lowerZero (_ : Expr) : Lower Reg := Lower.emitTo (.const · (.int 0))

end JumpCode.Expr
