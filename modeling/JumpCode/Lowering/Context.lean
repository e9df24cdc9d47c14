import JumpCode.Ast.Basic

/-!
# What lowering knows of the whole program

A function is lowered knowing which functions there are and how many parameters they take, and under
options that are the same for the whole program.
-/

namespace JumpCode

structure LowerOptions where
  /-- Refuse code with a label that stands twice or a jump that leads nowhere. -/
  verifyLabels : Bool := true
  /-- End a function that could run past its last instruction. -/
  implicitReturn : Bool := true
  deriving DecidableEq, Repr

/-- What is known of a function: its number in the order of declaration, and how many parameters it
    takes. -/
structure Signature where
  id : Nat
  arity : Nat
  deriving DecidableEq, Repr

structure Context where
  options : LowerOptions
  /-- The declared functions in the order of their numbers. -/
  functions : List (String × Signature)
  deriving DecidableEq, Repr

namespace Context

def empty (options : LowerOptions) : Context := ⟨options, []⟩

def find? (c : Context) (name : String) : Option Signature := c.functions.lookup name

/-- Declare a function.  To declare it again changes how many parameters it takes and nothing
    else. -/
def declare (c : Context) (name : String) (arity : Nat) : Context :=
  match c.find? name with
  | none => { c with functions := c.functions ++ [(name, ⟨c.functions.length, arity⟩)] }
  | some _ =>
    { c with functions := c.functions.map fun f => if f.1 = name then (f.1, { f.2 with arity }) else f }

def ofProgram (p : Program) (options : LowerOptions) : Context :=
  p.functions.foldl (fun c f => c.declare f.name f.params.length) (empty options)

end Context

end JumpCode
