import JumpCode.Ast.Linking
import JumpCode.Diagnostic

/-!
# Checking a program

Before it is lowered a program is checked: no two functions may have one name, no two parameters of
a function may, and every break needs a loop.  All findings are reported together, function by
function.  Breaks are linked whether or not there are findings.
-/

namespace JumpCode

/-- Something wrong with a program that could be read. -/
inductive Finding where
  | repeatedFunction (name : String) (origin : Origin)
  | repeatedParam (param function : String) (origin : Origin)
  | strayBreak (origin : Origin)
  deriving DecidableEq, Repr

namespace Finding

def message : Finding → String
  | .repeatedFunction name _ => s!"Function '{name}' is defined more than once"
  | .repeatedParam param function _ =>
    s!"Parameter '{param}' of '{function}' is declared more than once"
  | .strayBreak _ => "'break' used outside of a loop"

def origin : Finding → Origin
  | .repeatedFunction _ o | .repeatedParam _ _ o | .strayBreak o => o

def issuer : Finding → String
  | .repeatedFunction _ _ | .repeatedParam _ _ _ => "flatline.analyzers.functions"
  | .strayBreak _ => "flatline.analyzers.loops"

def toDiagnostic (f : Finding) : Diagnostic :=
  ⟨.analysis, .error, f.message, f.issuer, f.origin.location, f.origin.span⟩

end Finding

/-- The names of a list that are among those seen before, `seen` being seen from the start. -/
def repeatsAfter (seen : List String) : List String → List String
  | [] => []
  | x :: xs =>
    if x ∈ seen then x :: repeatsAfter seen xs else repeatsAfter (x :: seen) xs

namespace Function

/-- The findings about one function, when `taken` tells whether its name is taken. -/
def findings (taken : Bool) (f : Function) : List Finding :=
  (if taken then [.repeatedFunction f.name f.origin] else []) ++
    (repeatsAfter [] f.params).map (.repeatedParam · f.name f.origin) ++
    (f.body.strayBreaks false).map fun m => .strayBreak m.origin

def link (f : Function) : Function := { f with body := f.body.link none }

end Function

namespace Program

/-- The findings about a list of functions, when the names in `seen` are taken. -/
def findingsAfter (seen : List String) : List Function → List Finding
  | [] => []
  | f :: fs => f.findings (seen.contains f.name) ++ findingsAfter (f.name :: seen) fs

def findings (p : Program) : List Finding := findingsAfter [] p.functions

def link (p : Program) : Program := ⟨p.functions.map Function.link⟩

/-- Link a program in place.  This fails if anything is found wrong with the program, which is linked
    all the same. -/
def examine : EStateM (List Finding) Program Unit := do
  let p ← get
  set p.link
  match p.findings with
  | [] => return
  | fs => throw fs

theorem run_examine (p : Program) :
    examine.run p =
      match p.findings with
      | [] => .ok () p.link
      | fs => .error fs p.link := by
  simp only [examine, EStateM.run_bind, EStateM.run_get, EStateM.run_set]
  cases p.findings with
  | nil => rfl
  | cons f fs => rfl

/-- Link a program, or tell what is wrong with it. -/
def analyze (p : Program) : Except (List Finding) Program :=
  match examine.run p with
  | .ok _ q => .ok q
  | .error fs _ => .error fs

theorem analyze_eq (p : Program) :
    p.analyze =
      match p.findings with
      | [] => .ok p.link
      | fs => .error fs := by
  rw [analyze, run_examine]
  cases p.findings with
  | nil => rfl
  | cons f fs => rfl

end Program

end JumpCode
