import JumpCode.Code.Instr

/-!
# Routines

A routine is a lowered function: its code, how many parameters, slots and registers it has, and
where each label stands.  Routines are listed as text or as JSON; the places of labels can be read
off the code and are not listed.
-/

namespace JumpCode

structure Routine where
  name : String
  paramCount : Nat
  localCount : Nat
  regCount : Nat
  code : Array Instr
  /-- Each label that stands in the code, with the place of its first occurrence. -/
  labels : List (Label × Nat)
  deriving DecidableEq, Repr

namespace Routine

def positionOf (r : Routine) (l : Label) : Option Nat := r.labels.lookup l

def labelCount (r : Routine) : Nat := r.labels.length

/-- The labels and their places, by the numbers of the labels. -/
def sortedLabels (r : Routine) : List (Label × Nat) :=
  r.labels.mergeSort fun a b => a.1.number ≤ b.1.number

/-- The lines of a listing from the instruction with the number `i` on. -/
def codeLines (i : Nat) : List Instr → List String
  | [] => []
  | op :: ops => s!"{Text.opIndex i}: {op}\n" :: codeLines (i + 1) ops

def text (r : Routine) : String :=
  s!"fn {r.name} (params: {r.paramCount}, locals: {r.localCount}, regs: {r.regCount})\n" ++
    String.join (codeLines 0 r.code.toList)

def toJson (r : Routine) : Text.Json :=
  .object
    [("name", .string r.name), ("param_count", .number r.paramCount),
     ("local_count", .number r.localCount), ("reg_count", .number r.regCount),
     ("ops", .array (r.code.toList.map Instr.toJson))]

/-- The listing of several routines, with an empty line between two of them. -/
def listing (rs : List Routine) : String := String.intercalate "\n" (rs.map text)

def jsonListing (rs : List Routine) : String := (Text.Json.array (rs.map toJson)).pretty 0

def find? (rs : List Routine) (name : String) : Option Routine := rs.find? (·.name == name)

end Routine

end JumpCode
