import JumpCode.Log
import JumpCode.Lowering.Stmt

/-!
# Lowering functions and programs

Every function is lowered on its own, from a builder that knows its parameters and in a context in
which all functions are declared.  A function that fails is reported and left out; the others are
lowered all the same.
-/

namespace JumpCode

namespace Function

/-- Walk through the body of a function. -/
def walk (ctx : Context) (f : Function) : EStateM.Result LowerError Walk Unit :=
  (f.body.lower (Expr.lower ctx)).run (.start (.withParams f.params))

def lower (ctx : Context) (f : Function) : Except LowerError Routine :=
  match f.walk ctx with
  | .error e _ => .error (e.inFunction f.name)
  | .ok _ w =>
    let b := if ctx.options.implicitReturn then w.builder.close else w.builder
    b.finish f.name ctx.options.verifyLabels

end Function

/-- What has become of the functions of a program: those that were lowered and the failures of the
    others, both in the order of the program. -/
structure Lowered where
  routines : List Routine
  errors : List LowerError
  deriving DecidableEq, Repr

namespace Lowered

def empty : Lowered := ⟨[], []⟩

def add (l : Lowered) : Except LowerError Routine → Lowered
  | .ok r => { l with routines := l.routines ++ [r] }
  | .error e => { l with errors := l.errors ++ [e] }

def isOk (l : Lowered) : Bool := l.errors.isEmpty

def find? (l : Lowered) (name : String) : Option Routine := Routine.find? l.routines name

def text (l : Lowered) : String := Routine.listing l.routines

def json (l : Lowered) : String := Routine.jsonListing l.routines

end Lowered

namespace Program

def lower (p : Program) (options : LowerOptions) : Lowered :=
  let ctx := Context.ofProgram p options
  p.functions.foldl (fun l f => l.add (f.lower ctx)) .empty

end Program

/-! ### The log -/

namespace LowerError

/-- What the log says of a failure that a checked program cannot cause. -/
def logRecords (e : LowerError) (function : String) : List LogRecord :=
  match e.kind with
  | .unresolvedBreak s loop =>
    let shown := match loop with
      | some l => s!"Some(StmtId({l.number}))"
      | none => "None"
    [⟨.error, s!"[lower] break {s} has no exit label (enclosing loop: {shown})"⟩]
  | .duplicateLabel l first second =>
    [⟨.error, s!"[ir] {function}: label {l} placed at {first} and {second}"⟩]
  | .danglingJump l place => [⟨.error, s!"[ir] {function}: op {place} jumps to unplaced label {l}"⟩]
  | _ => []

end LowerError

def Visit.logRecord (v : Visit) : LogRecord := ⟨.trace, s!"[lower] {v.kind} {v.id} at op {v.place}"⟩

namespace Function

def lowerLog (ctx : Context) (f : Function) : List LogRecord :=
  let walked := match f.walk ctx with
    | .error _ w => w
    | .ok _ w => w
  let result := match f.lower ctx with
    | .ok r =>
      [⟨.debug, s!"[ir] lowered '{r.name}': {r.code.size} ops, {r.labelCount} labels, {r.regCount} regs"⟩]
    | .error e => e.logRecords f.name
  ⟨.debug, s!"[ir] lowering function '{f.name}' ({f.params.length} params)"⟩ ::
    walked.visits.toList.map Visit.logRecord ++ result

end Function

namespace Program

def lowerLog (p : Program) (options : LowerOptions) : List LogRecord :=
  let done := (p.lower options).routines.length
  p.functions.flatMap (Function.lowerLog (Context.ofProgram p options)) ++
    [⟨.debug, s!"[ir] lowered {done} of {p.functions.length} function(s)"⟩]

end Program

end JumpCode
