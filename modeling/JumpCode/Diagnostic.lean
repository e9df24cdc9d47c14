import JumpCode.Source.Position

/-!
# Diagnostics

Every problem, whatever part of the program meets it, is reported as a `Diagnostic`: how severe it
is, what is wrong, which part says so, and where.  The parts of the program have their own types of
problems, which say what went wrong; this module fixes how a problem is shown.
-/

namespace JumpCode

/-- How severe a problem is, from the mildest on. -/
inductive Level where
  | info | warning | error | critical
  deriving DecidableEq, Repr

namespace Level

def name : Level → String
  | info => "INFO"
  | warning => "WARNING"
  | error => "ERROR"
  | critical => "CRITICAL"

def rank : Level → Nat
  | info => 0
  | warning => 1
  | error => 2
  | critical => 3

def ofName? (s : String) : Option Level :=
  [info, warning, error, critical].find? (·.name == s)

/-- Whether a problem of this level makes the work fail. -/
def isFailure (l : Level) : Bool := error.rank ≤ l.rank

instance : ToString Level := ⟨name⟩

instance : Ord Level := ⟨fun a b => compare a.rank b.rank⟩

end Level

/-- The part of the work in which a problem was met. -/
inductive Stage where
  | script | parsing | analysis | lowering | execution
  deriving DecidableEq, Repr

structure Diagnostic where
  stage : Stage
  level : Level
  message : String
  issuer : String
  location : Option Location
  span : Option Span
  deriving DecidableEq, Repr

namespace Diagnostic

def isFailure (d : Diagnostic) : Bool := d.level.isFailure

/-- The text of something that may be absent. -/
private def textOr {α : Type} [ToString α] (absent : String) : Option α → String
  | some a => toString a
  | none => absent

/-- The report for a reader: severity, place and message. -/
def report (d : Diagnostic) : String :=
  let place := textOr "unknown location" d.location
  s!"FLATLINE | {d.level} | {place} | {d.message}"

def detail (d : Diagnostic) : String :=
  let place := textOr "unknown" d.location
  let extent := textOr "span:none" d.span
  s!"FLATLINE | {d.level} | {place} | {d.issuer} | {extent} | {d.message}"

/-- The message on its own, with the place where the stage gives one: in parentheses while a script
    is parsed, after the message while a tree is analysed or lowered. -/
def brief (d : Diagnostic) : String :=
  match d.stage, d.location with
  | .parsing, some l => s!"{d.message} (at {l})"
  | .analysis, some l => s!"{d.message} at {l}"
  | .lowering, some l => s!"{d.message} at {l}"
  | _, _ => d.message

/-- The line for a terminal: level, place, message and issuer. -/
def terminalLine (d : Diagnostic) : String :=
  let place := match d.location with
    | some l => s!"{l}: "
    | none => ""
  s!"[{d.level}] {place}{d.message} ({d.issuer})"

end Diagnostic

end JumpCode
