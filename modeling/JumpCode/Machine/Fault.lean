import JumpCode.Code.Instr
import JumpCode.Diagnostic

/-!
# What can go wrong in a run

A run stops with a fault when it has used up its steps or its depth, when it divides by zero, or
when a call or jump leads nowhere.  A fault names the instruction that was to blame by its function
and its place there.  The call that starts a run has a place of its own.
-/

namespace JumpCode

inductive FaultKind where
  | stepLimit (limit : Nat)
  | callDepth (limit : Nat)
  | divisionByZero
  | unknownFunction (name : String)
  | arityMismatch (name : String) (expected found : Nat)
  | unknownLabel (label : Label)
  deriving DecidableEq, Repr

namespace FaultKind

def message : FaultKind → String
  | .stepLimit limit => s!"step limit of {limit} exceeded"
  | .callDepth limit => s!"call depth limit of {limit} exceeded"
  | .divisionByZero => "division by zero"
  | .unknownFunction name => s!"Unknown function '{name}'"
  | .arityMismatch name expected found =>
    s!"Function '{name}' takes {expected} argument(s) but {found} were given"
  | .unknownLabel l => s!"jump to unresolved label {l}"

/-- Only code whose labels were not verified can jump to a label that is not there. -/
def level : FaultKind → Level
  | .unknownLabel _ => .critical
  | _ => .error

end FaultKind

structure Site where
  function : String
  pc : Nat
  deriving DecidableEq, Repr

/-- The place of the call that starts a run. -/
def Site.entry : Site := ⟨"<entry>", 0⟩

structure Fault where
  kind : FaultKind
  site : Site
  deriving DecidableEq, Repr

namespace Fault

def message (f : Fault) : String :=
  s!"{f.kind.message} (in '{f.site.function}' at op {Text.opIndex f.site.pc})"

def toDiagnostic (f : Fault) : Diagnostic :=
  ⟨.execution, f.kind.level, f.message, "flatline.vm.exec", none, none⟩

end Fault

end JumpCode
