import JumpCode.Ast.Basic
import JumpCode.Code.Instr
import JumpCode.Diagnostic

/-!
# What can go wrong while lowering

A function may use a name, a callee or a loop that is not there, and code may place a label twice or
jump to one that it never places.  The last two, and a break without a loop, cannot come from a
checked program; they are reported as critical.
-/

namespace JumpCode

/-- The cause of a failure. -/
inductive LowerErrorKind where
  | unresolvedBreak (stmt : StmtId) (loop : Option StmtId)
  | unknownIdentifier (name : String)
  | unknownFunction (name : String)
  | arityMismatch (name : String) (expected found : Nat)
  | duplicateLabel (label : Label) (first second : Nat)
  | danglingJump (label : Label) (place : Nat)
  deriving DecidableEq, Repr

namespace LowerErrorKind

/-- Whether a checked program cannot cause the failure. -/
def isInternal : LowerErrorKind → Bool
  | .unresolvedBreak _ _ | .duplicateLabel _ _ _ | .danglingJump _ _ => true
  | .unknownIdentifier _ | .unknownFunction _ | .arityMismatch _ _ _ => false

def message : LowerErrorKind → String
  | .unresolvedBreak s (some l) => s!"break {s} targets loop {l} which has no exit label"
  | .unresolvedBreak s none => s!"break {s} was never linked to an enclosing loop"
  | .unknownIdentifier name => s!"Unknown identifier '{name}'"
  | .unknownFunction name => s!"Unknown function '{name}'"
  | .arityMismatch name expected found =>
    s!"Function '{name}' takes {expected} argument(s) but {found} were given"
  | .duplicateLabel l first second => s!"label {l} placed twice (ops {first} and {second})"
  | .danglingJump l place => s!"op {place} jumps to label {l} which was never placed"

def issuer : LowerErrorKind → String
  | .unresolvedBreak _ _ => "flatline.lower.stmt"
  | .unknownIdentifier _ | .unknownFunction _ | .arityMismatch _ _ _ => "flatline.lower.expr"
  | .duplicateLabel _ _ _ | .danglingJump _ _ => "flatline.lower.finalize"

end LowerErrorKind

/-- A failure, the function in which it occurred, once that is known, and the node to blame. -/
structure LowerError where
  kind : LowerErrorKind
  function : Option String
  origin : Origin
  deriving DecidableEq, Repr

namespace LowerError

def ofKind (kind : LowerErrorKind) (origin : Origin) : LowerError := ⟨kind, none, origin⟩

/-- Blame a function, unless one has been blamed before. -/
def inFunction (e : LowerError) (name : String) : LowerError :=
  { e with function := e.function <|> some name }

def message (e : LowerError) : String :=
  match e.function with
  | some name => s!"in function '{name}': {e.kind.message}"
  | none => e.kind.message

def level (e : LowerError) : Level := if e.kind.isInternal then .critical else .error

def toDiagnostic (e : LowerError) : Diagnostic :=
  ⟨.lowering, e.level, e.message, e.kind.issuer, e.origin.location, e.origin.span⟩

end LowerError

end JumpCode
