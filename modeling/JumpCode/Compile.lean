import JumpCode.Ast.Analysis
import JumpCode.Ast.Reader
import JumpCode.Lowering.Program

/-!
# From script to routines

A script is read, its tree is checked and linked, and every function of the tree is lowered.  What
is wrong with the script or its tree ends the work.  Functions that cannot be lowered do not: their
failures stand in the result beside the routines of the others.
-/

namespace JumpCode

namespace Program

/-- The linked program, or what is wrong with it. -/
def check (p : Program) : Except (List Diagnostic) Program :=
  match p.analyze with
  | .error fs => .error (fs.map Finding.toDiagnostic)
  | .ok p => .ok p

def compile (p : Program) (options : LowerOptions) : Except (List Diagnostic) Lowered :=
  match p.check with
  | .error ds => .error ds
  | .ok p => .ok (p.lower options)

end Program

namespace Script

/-- The linked program of a script, or what is wrong with it. -/
def load (s : Script) : Except (List Diagnostic) Program :=
  match Program.ofScript s with
  | .error e => .error [e.toDiagnostic]
  | .ok p => p.check

def compile (s : Script) (options : LowerOptions) : Except (List Diagnostic) Lowered :=
  match s.load with
  | .error ds => .error ds
  | .ok p => .ok (p.lower options)

end Script

end JumpCode
