import JumpCode.Code.Routine
import JumpCode.Lowering.Error

/-!
# Building a routine

A `Builder` holds the code written so far and hands out registers, labels and slots.  Code is only
ever appended.  A name has the slot that is its place in the list of names, so no two names share a
slot and every slot below the number of names is in use.

`Lower` is the monad of steps that extend a builder and may fail.  A step that fails leaves behind
what it had built.

`Builder.finish` gives each label its place.  It refuses code in which a label stands twice or a
jump leads nowhere, unless it is told not to look.
-/

namespace JumpCode

structure Builder where
  nextReg : Reg
  nextLabel : UInt32
  paramCount : Nat
  /-- The names that have a slot, in the order of the slots. -/
  names : List String
  code : Array Instr
  deriving DecidableEq, Repr

namespace Builder

def empty : Builder := ⟨0, 0, 0, [], #[]⟩

def slot? (b : Builder) (name : String) : Option Slot := b.names.idxOf? name

def slotCount (b : Builder) : Nat := b.names.length

/-- Give a name a slot, if it has none. -/
def bindName (b : Builder) (name : String) : Builder :=
  if name ∈ b.names then b else { b with names := b.names ++ [name] }

def withParams (params : List String) : Builder :=
  { params.foldl bindName empty with paramCount := params.length }

def emit (b : Builder) (i : Instr) : Builder := { b with code := b.code.push i }

/-- End code that does not end in a return. -/
def close (b : Builder) : Builder :=
  if b.code.back?.any Instr.isReturn then b else b.emit .retVoid

end Builder

/-! ### Steps -/

/-- Steps that extend a builder and may fail. -/
abbrev Lower := EStateM LowerError Builder

namespace Lower

def freshReg : Lower Reg := do
  let b ← get
  set { b with nextReg := b.nextReg + 1 }
  return b.nextReg

def freshLabel : Lower Label := do
  let b ← get
  set { b with nextLabel := b.nextLabel + 1 }
  return ⟨b.nextLabel⟩

def emit (i : Instr) : Lower Unit := modify (·.emit i)

def place (l : Label) : Lower Unit := emit (.label l)

/-- The slot of a name, which gets one if it has none. -/
def slotFor (name : String) : Lower Slot := do
  modify (·.bindName name)
  return (← get).names.idxOf name

/-- Append an instruction that writes a register not used before. -/
def emitTo (i : Reg → Instr) : Lower Reg := do
  let r ← freshReg
  emit (i r)
  return r

end Lower

/-! ### Places of labels -/

/-- The places of the labels in the code from the instruction with the number `i` on, when `table`
    has those before it.  The first place of a label counts; if `unique` is set there must not be a
    second. -/
def placeLabels (unique : Bool) (table : List (Label × Nat)) (i : Nat) :
    List Instr → Except LowerErrorKind (List (Label × Nat))
  | [] => .ok table
  | .label l :: rest =>
    match table.lookup l with
    | none => placeLabels unique (table ++ [(l, i)]) (i + 1) rest
    | some first =>
      if unique then .error (.duplicateLabel l first i) else placeLabels unique table (i + 1) rest
  | _ :: rest => placeLabels unique table (i + 1) rest

/-- The first jump, from the instruction with the number `i` on, to a label without a place. -/
def danglingJump? (table : List (Label × Nat)) (i : Nat) : List Instr → Option LowerErrorKind
  | [] => none
  | op :: rest =>
    match op.target? with
    | none => danglingJump? table (i + 1) rest
    | some l =>
      match table.lookup l with
      | some _ => danglingJump? table (i + 1) rest
      | none => some (.danglingJump l i)

/-- The places of all labels in some code, which is looked through for mistakes if `verify` is
    set. -/
def resolveLabels (verify : Bool) (code : List Instr) : Except LowerErrorKind (List (Label × Nat)) :=
  match placeLabels verify [] 0 code with
  | .error e => .error e
  | .ok table =>
    if verify then
      match danglingJump? table 0 code with
      | some e => .error e
      | none => .ok table
    else .ok table

def Builder.finish (b : Builder) (name : String) (verify : Bool) : Except LowerError Routine :=
  match resolveLabels verify b.code.toList with
  | .ok labels => .ok ⟨name, b.paramCount, b.slotCount, b.nextReg, b.code, labels⟩
  | .error e => .error ((LowerError.ofKind e .unknown).inFunction name)

end JumpCode
