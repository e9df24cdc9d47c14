import JumpCode.Lowering.Expr

/-!
# Lowering statements

Conditionals and loops become labels and jumps.  When a loop is entered, the label after it is noted
under the loop's number, and a break jumps to the label noted for the loop it names.  Notes are kept
after the loop has ended.

The walk also notes, for the log, which statements it came to and how long the code was then.  How
expressions are lowered is a parameter.
-/

namespace JumpCode

/-- A statement that the walk came to, and the length of the code at that moment. -/
structure Visit where
  kind : String
  id : StmtId
  place : Nat
  deriving DecidableEq, Repr

structure Walk where
  builder : Builder
  /-- The label after each loop that has been entered, the last entered first. -/
  exits : List (StmtId × Label)
  visits : Array Visit

namespace Walk

def start (b : Builder) : Walk := ⟨b, [], #[]⟩

/-- The label after a loop, if the loop has been entered. -/
def exit? (w : Walk) (loop : StmtId) : Option Label := w.exits.lookup loop

end Walk

abbrev Walking := EStateM LowerError Walk

namespace Walking

/-- A step that only builds. -/
def build {α : Type} (x : Lower α) : Walking α := fun ⟨b, exits, visits⟩ =>
  match x b with
  | .ok a b => .ok a ⟨b, exits, visits⟩
  | .error e b => .error e ⟨b, exits, visits⟩

def visit (s : Stmt) : Walking Unit :=
  modify fun w => { w with visits := w.visits.push ⟨s.kindName, s.id, w.builder.code.size⟩ }

def enterLoop (loop : StmtId) (l : Label) : Walking Unit :=
  modify fun w => { w with exits := (loop, l) :: w.exits }

end Walking

namespace Stmt

open Walking

variable (lowerExpr : Expr → Lower Reg)

mutual

/-- Append the code of a statement. -/
def lower : Stmt → Walking Unit
  | s@(.block _ body) => do
    visit s
    lowerAll body
  | s@(.eval _ e) => do
    visit s
    let _ ← build (lowerExpr e)
  | s@(.ret _ none) => do
    visit s
    build (Lower.emit .retVoid)
  | s@(.ret _ (some e)) => do
    visit s
    let src ← build (lowerExpr e)
    build (Lower.emit (.ret src))
  | s@(.ifThen _ c t) => do
    visit s
    let cond ← build (lowerExpr c)
    let after ← build Lower.freshLabel
    build (Lower.emit (.branchFalse cond after))
    t.lower
    build (Lower.place after)
  | s@(.ifElse _ c t e) => do
    visit s
    let cond ← build (lowerExpr c)
    let otherwise ← build Lower.freshLabel
    build (Lower.emit (.branchFalse cond otherwise))
    t.lower
    let after ← build Lower.freshLabel
    build (Lower.emit (.jump after))
    build (Lower.place otherwise)
    e.lower
    build (Lower.place after)
  | s@(.whileLoop m c body) => do
    visit s
    let top ← build Lower.freshLabel
    let after ← build Lower.freshLabel
    enterLoop m.id after
    build (Lower.place top)
    let cond ← build (lowerExpr c)
    build (Lower.emit (.branchFalse cond after))
    body.lower
    build (Lower.emit (.jump top))
    build (Lower.place after)
  | s@(.breakLoop m loop) => do
    visit s
    match loop.bind (← get).exit? with
    | some l => build (Lower.emit (.jump l))
    | none => throw (.ofKind (.unresolvedBreak m.id loop) m.origin)

def lowerAll : List Stmt → Walking Unit
  | [] => return
  | s :: ss => do
    s.lower
    lowerAll ss

end

end Stmt

end JumpCode
