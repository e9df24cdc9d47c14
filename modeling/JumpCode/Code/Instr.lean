import JumpCode.Code.Value

/-!
# Instructions

Lowered code is a flat list of instructions over numbered registers, slots and labels.  A label is
an identity that jumps refer to; the instruction `label` gives it a place and does nothing else.
-/

namespace JumpCode

/-- The name of a place in code.  There are 2 ^ 32 of them. -/
structure Label where
  number : UInt32
  deriving DecidableEq, Repr

instance : ToString Label where
  toString l := s!"L{l.number.toNat}"

abbrev Reg := Nat

abbrev Slot := Nat

inductive Instr where
  | const (dest : Reg) (value : Value)
  | load (dest : Reg) (slot : Slot)
  | store (src : Reg) (slot : Slot)
  | binary (op : BinaryOp) (dest left right : Reg)
  | unary (op : UnaryOp) (dest src : Reg)
  | label (label : Label)
  | jump (target : Label)
  /-- Jump when the register holds zero. -/
  | branchFalse (cond : Reg) (target : Label)
  | call (dest : Reg) (callee : String) (args : List Reg)
  | ret (src : Reg)
  | retVoid
  deriving DecidableEq, Repr

def UnaryOp.mnemonic : UnaryOp → String
  | minus => "Neg"
  | not => "Not"

def BinaryOp.mnemonic : BinaryOp → String
  | add => "Add"
  | sub => "Sub"
  | mul => "Mul"
  | div => "Div"
  | mod => "Mod"
  | eq => "Eq"
  | ne => "Neq"
  | lt => "Lt"
  | le => "Lte"
  | gt => "Gt"
  | ge => "Gte"

namespace Instr

/-- The label that control may go to, if the instruction is a jump. -/
def target? : Instr → Option Label
  | .jump l | .branchFalse _ l => some l
  | _ => none

/-- Whether the instruction ends its function. -/
def isReturn : Instr → Bool
  | .ret _ | .retVoid => true
  | _ => false

def text : Instr → String
  | .const d v => s!"LConst r{d} <- {v}"
  | .load d i => s!"LLocal r{d} <- local[{i}]"
  | .store s i => s!"SLocal local[{i}] <- r{s}"
  | .binary op d l r => s!"{op.mnemonic} r{d} <- r{l} {op.symbol} r{r}"
  | .unary op d s => s!"{op.mnemonic} r{d} <- {op.symbol}r{s}"
  | .label l => s!"{l}:"
  | .jump l => s!"Jump {l}"
  | .branchFalse c l => s!"BrFalse r{c} -> {l}"
  | .call d f args =>
    let regs := String.intercalate ", " (args.map fun r => s!"r{r}")
    s!"Call r{d} <- {f}({regs})"
  | .ret s => s!"Ret r{s}"
  | .retVoid => "RetVoid"

instance : ToString Instr := ⟨text⟩

def numberMember (name : String) (n : Nat) : String × Text.Json := (name, .number n)

def members : Instr → List (String × Text.Json)
  | .const d v => [("op", .string "LConst"), numberMember "dest" d, ("value", v.toJson)]
  | .load d i => [("op", .string "LLocal"), numberMember "dest" d, numberMember "local_index" i]
  | .store s i => [("op", .string "SLocal"), numberMember "src" s, numberMember "local_index" i]
  | .binary op d l r =>
    [("op", .string op.mnemonic), numberMember "dest" d, numberMember "src1" l,
     numberMember "src2" r]
  | .unary op d s => [("op", .string op.mnemonic), numberMember "dest" d, numberMember "src" s]
  | .label l => [("op", .string "Label"), numberMember "label" l.number.toNat]
  | .jump l => [("op", .string "Jump"), numberMember "target" l.number.toNat]
  | .branchFalse c l =>
    [("op", .string "BrFalse"), numberMember "cond" c, numberMember "target" l.number.toNat]
  | .call d f args =>
    [("op", .string "Call"), numberMember "dest" d, ("func", .string f),
     ("args", .array (args.map fun (r : Nat) => .number r))]
  | .ret s => [("op", .string "Ret"), numberMember "src" s]
  | .retVoid => [("op", .string "RetVoid")]

def toJson (i : Instr) : Text.Json := .object i.members

end Instr

end JumpCode
