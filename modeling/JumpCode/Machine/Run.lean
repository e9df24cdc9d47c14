import JumpCode.Log
import JumpCode.Machine.Step

/-!
# Runs

A run calls one routine and steps until the call has returned, a fault has occurred or the steps
granted to it are used up.  It counts its steps, and counts the step that it was not granted as
well.  If asked to, it also notes every instruction it runs.
-/

namespace JumpCode

structure RunOptions where
  maxSteps : Nat := 1000000
  maxDepth : Nat := 256
  trace : Bool := false
  deriving DecidableEq, Repr

/-- An instruction that was run, and where. -/
structure Traced where
  site : Site
  instr : Instr
  deriving DecidableEq, Repr

structure RunReport where
  outcome : Except Fault (Option Value)
  steps : Nat
  trace : Array Traced

namespace Machine

def note (tracing : Bool) (t : Array Traced) (m : Machine) : Array Traced :=
  if tracing then
    match m.top.instr? with
    | some i => t.push ⟨m.top.site, i⟩
    | none => t
  else t

/-- Go on from a state with `granted` steps left, after `steps` steps. -/
def runFrom (routines : List Routine) (options : RunOptions) :
    (granted steps : Nat) → Array Traced → Machine → RunReport
  | 0, steps, t, m => ⟨.error ⟨.stepLimit options.maxSteps, m.top.site⟩, steps + 1, t⟩
  | granted + 1, steps, t, m =>
    let t := note options.trace t m
    match step routines options.maxDepth m with
    | .running m => runFrom routines options granted (steps + 1) t m
    | .finished v => ⟨.ok v, steps + 1, t⟩
    | .failed e => ⟨.error e, steps + 1, t⟩

def run (routines : List Routine) (entry : String) (args : List Value) (options : RunOptions) :
    RunReport :=
  match call routines options.maxDepth entry args 0 .entry with
  | .error e => ⟨.error e, 0, #[]⟩
  | .ok f =>
    match rest f [] with
    | .running m => runFrom routines options options.maxSteps 0 #[] m
    | .finished v => ⟨.ok v, 0, #[]⟩
    | .failed e => ⟨.error e, 0, #[]⟩

end Machine

def Traced.logRecord (t : Traced) : LogRecord :=
  ⟨.trace, s!"[vm] {t.site.function}@{Text.opIndex t.site.pc}: {t.instr}"⟩

/-- What the log says of a run of the routine `entry`. -/
def RunReport.log (r : RunReport) (entry : String) : List LogRecord :=
  r.trace.toList.map Traced.logRecord ++
    [⟨.debug, s!"[vm] '{entry}' finished after {r.steps} step(s)"⟩]

end JumpCode
