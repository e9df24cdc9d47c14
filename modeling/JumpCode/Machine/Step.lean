import JumpCode.Code.Routine
import JumpCode.Machine.Cells
import JumpCode.Machine.Fault

/-!
# The machine

The machine runs the routine of its top frame, one instruction at a time.  Under the top frame are
the frames of its callers, each still at its call and with the register that is to receive the
result.  A frame that runs past its last instruction returns nothing, and that takes no step: the
states in which the machine rests between two steps always have an instruction to run.
-/

namespace JumpCode

structure Frame where
  routine : Routine
  /-- How many calls lie between the start of the run and this frame. -/
  depth : Nat
  pc : Nat
  regs : Cells
  slots : Cells

namespace Frame

def enter (r : Routine) (args : List Value) (depth : Nat) : Frame :=
  ⟨r, depth, 0, .blank r.regCount, .ofValues r.localCount args⟩

def reg (f : Frame) (r : Reg) : Value := f.regs.read r

def setReg (f : Frame) (r : Reg) (v : Value) : Frame := { f with regs := f.regs.write r v }

def slot (f : Frame) (i : Slot) : Value := f.slots.read i

def setSlot (f : Frame) (i : Slot) (v : Value) : Frame := { f with slots := f.slots.write i v }

def advance (f : Frame) : Frame := { f with pc := f.pc + 1 }

def site (f : Frame) : Site := ⟨f.routine.name, f.pc⟩

def instr? (f : Frame) : Option Instr := f.routine.code[f.pc]?

def isPastEnd (f : Frame) : Bool := f.routine.code.size ≤ f.pc

/-- Put what an operator makes of two registers into a third.  Without a result this fails, and the
    frame stays as it is. -/
def operate (op : BinaryOp) (d l r : Reg) : EStateM Fault Frame Unit := do
  let f ← get
  match op.apply (f.reg l) (f.reg r) with
  | some v => set (f.setReg d v)
  | none => throw ⟨.divisionByZero, f.site⟩

theorem run_operate (f : Frame) (op : BinaryOp) (d l r : Reg) :
    (operate op d l r).run f =
      match op.apply (f.reg l) (f.reg r) with
      | some v => .ok () (f.setReg d v)
      | none => .error ⟨.divisionByZero, f.site⟩ f := by
  simp only [operate, EStateM.run_bind, EStateM.run_get]
  cases op.apply (f.reg l) (f.reg r) with
  | some v => rfl
  | none => rfl

end Frame

/-- A frame that waits for a call to return into a register. -/
structure Waiting where
  frame : Frame
  dest : Reg

structure Machine where
  top : Frame
  callers : List Waiting

inductive Next where
  | running (m : Machine)
  | finished (value : Option Value)
  | failed (fault : Fault)

namespace Machine

/-- Return a value, or nothing, to the callers.  A caller takes nothing as the initial value, and
    returns nothing itself if its call was the last instruction. -/
def deliver (v : Option Value) : List Waiting → Next
  | [] => .finished v
  | c :: cs =>
    let f := (c.frame.setReg c.dest (v.getD default)).advance
    if f.isPastEnd then deliver none cs else .running ⟨f, cs⟩

/-- Rest with the frame `f` on top, unless it is past its last instruction. -/
def rest (f : Frame) (callers : List Waiting) : Next :=
  if f.isPastEnd then deliver none callers else .running ⟨f, callers⟩

/-- The frame of a call made from `site` at a given depth, if the call may be made. -/
def call (routines : List Routine) (maxDepth : Nat) (name : String) (args : List Value)
    (depth : Nat) (site : Site) : Except Fault Frame :=
  match Routine.find? routines name with
  | none => .error ⟨.unknownFunction name, site⟩
  | some r =>
    if r.paramCount ≠ args.length then
      .error ⟨.arityMismatch name r.paramCount args.length, site⟩
    else if maxDepth < depth then .error ⟨.callDepth maxDepth, site⟩
    else .ok (.enter r args depth)

/-- Go on at a label. -/
def goTo (f : Frame) (callers : List Waiting) (l : Label) : Next :=
  match f.routine.positionOf l with
  | some i => rest { f with pc := i } callers
  | none => .failed ⟨.unknownLabel l, f.site⟩

def exec (routines : List Routine) (maxDepth : Nat) (f : Frame) (callers : List Waiting) :
    Instr → Next
  | .const d v => rest (f.setReg d v).advance callers
  | .load d i => rest (f.setReg d (f.slot i)).advance callers
  | .store s i => rest (f.setSlot i (f.reg s)).advance callers
  | .binary op d l r =>
    match (Frame.operate op d l r).run f with
    | .ok _ g => rest g.advance callers
    | .error e _ => .failed e
  | .unary op d s => rest (f.setReg d (op.apply (f.reg s))).advance callers
  | .label _ => rest f.advance callers
  | .jump l => goTo f callers l
  | .branchFalse c l => if (f.reg c).isZero then goTo f callers l else rest f.advance callers
  | .call d name args =>
    match call routines maxDepth name (args.map f.reg) (f.depth + 1) f.site with
    | .ok g => rest g (⟨f, d⟩ :: callers)
    | .error e => .failed e
  | .ret s => deliver (some (f.reg s)) callers
  | .retVoid => deliver none callers

theorem exec_binary (routines : List Routine) (maxDepth : Nat) (f : Frame) (callers : List Waiting)
    (op : BinaryOp) (d l r : Reg) :
    exec routines maxDepth f callers (.binary op d l r) =
      match op.apply (f.reg l) (f.reg r) with
      | some v => rest (f.setReg d v).advance callers
      | none => .failed ⟨.divisionByZero, f.site⟩ := by
  rw [exec, Frame.run_operate]
  cases op.apply (f.reg l) (f.reg r) with
  | some v => rfl
  | none => rfl

def step (routines : List Routine) (maxDepth : Nat) : Machine → Next
  | ⟨f, callers⟩ =>
    match f.instr? with
    | some i => exec routines maxDepth f callers i
    | none => deliver none callers

end Machine

end JumpCode
