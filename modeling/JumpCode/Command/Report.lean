import JumpCode.Ast.Dump
import JumpCode.Command.Request
import JumpCode.Compile
import JumpCode.Machine.Run
import JumpCode.Source.FileTree
import JumpCode.Text.Grid

/-!
# Answers to requests

A `Report` is what a request leaves behind: what is printed, what is reported beside it, a file to
write, and whether it succeeded.  It is a function of the request and of the script that the request
names.  `FileTree.execute` reads that script from a directory and writes the file there.
-/

namespace JumpCode

/-- What comes of a request. -/
structure Report where
  exitCode : Nat
  stdout : String
  stderr : String
  /-- A file to write, with its content. -/
  output : Option (String × String)
  deriving DecidableEq, Repr

namespace Report

/-- Each text on a line of its own. -/
def lines (texts : List String) : String := String.join (texts.map (· ++ "\n"))

/-- Diagnostics for the terminal. -/
def diagnosticLines (ds : List Diagnostic) : String := lines (ds.map Diagnostic.terminalLine)

def logLines (threshold : LogLevel) (rs : List LogRecord) : String :=
  lines ((LogRecord.upTo threshold rs).map LogRecord.line)

def refused (ds : List Diagnostic) : Report := ⟨1, "", diagnosticLines ds, none⟩

/-- The text was printed and nothing else happened. -/
def printed (exitCode : Nat) (text : String) : Report := ⟨exitCode, text, "", none⟩

/-- The report when writing its file has failed. -/
def notWritten (r : Report) (reason : String) : Report :=
  ⟨1, r.stdout, r.stderr ++ s!"I/O error: {reason}\n", none⟩

end Report

def Routine.summaryRow (r : Routine) : List String :=
  r.name :: [r.paramCount, r.localCount, r.regCount, r.code.size, r.labelCount].map Text.decimal

def Lowered.summary (l : Lowered) : String :=
  Text.Grid.render
    ⟨["function", "params", "locals", "regs", "ops", "labels"], l.routines.map Routine.summaryRow⟩

namespace BuildRequest

def threshold (r : BuildRequest) : LogLevel := if r.verbose then .debug else .warn

/-- What is to be shown instead of the summary. -/
def shown (r : BuildRequest) (p : Program) (l : Lowered) : Option String :=
  match r.dump, r.format with
  | none, _ => none
  | some .ast, _ => some (p.dump ++ "\n")
  | some .ir, .text => some l.text
  | some .ir, .json => some (l.json ++ "\n")

def report (r : BuildRequest) (p : Program) : Report :=
  let options : LowerOptions := { verifyLabels := r.verifyLabels }
  let lowered := p.lower options
  let diagnostics := lowered.errors.map LowerError.toDiagnostic
  let failed := diagnostics.any Diagnostic.isFailure
  let exitCode := if failed then 1 else 0
  let stderr := Report.logLines r.threshold (p.lowerLog options) ++
    Report.diagnosticLines diagnostics
  match r.shown p lowered, r.output with
  | some text, some path => ⟨exitCode, "", stderr, some (path, text)⟩
  | some text, none => ⟨exitCode, text, stderr, none⟩
  | none, _ =>
    let table := if lowered.routines.isEmpty then "" else lowered.summary ++ "\n"
    let success := if failed then "" else
      s!"lowered {lowered.routines.length} function(s) from {r.file}\n"
    ⟨exitCode, table, stderr ++ success, none⟩

end BuildRequest

namespace RunRequest

def threshold (r : RunRequest) : LogLevel :=
  if r.trace then .trace else if r.verbose then .debug else .warn

def options (r : RunRequest) : RunOptions :=
  let defaults : RunOptions := {}
  { maxSteps := r.maxSteps.getD defaults.maxSteps, trace := r.trace }

def report (r : RunRequest) (p : Program) : Report :=
  let lowered := p.lower {}
  let log := p.lowerLog {}
  if lowered.isOk then
    let result := Machine.run lowered.routines r.entry (r.args.map .int) r.options
    let stderr := Report.logLines r.threshold (log ++ result.log r.entry)
    match result.outcome with
    | .ok (some v) => ⟨0, s!"{v}\n", stderr, none⟩
    | .ok none => ⟨0, "", stderr, none⟩
    | .error e => ⟨1, "", stderr ++ Report.diagnosticLines [e.toDiagnostic], none⟩
  else
    ⟨1, "", Report.logLines r.threshold log ++
      Report.diagnosticLines (lowered.errors.map LowerError.toDiagnostic), none⟩

end RunRequest

def usage : String :=
  Report.lines
    ["Usage: flatline [-v] <build|run> [OPTIONS] <file>", "",
     "build: -d, --dump <ast|ir>  -f, --format <text|json>  -o, --output <FILE>  --no-verify",
     "run:   -e, --entry <NAME>  -a, --arg <INT>  --max-steps <N>  --trace"]

/-- Load a script that may have been unreadable, and go on with its program. -/
def Report.ofScript (script : Except Unreadable Script) (k : Program → Report) : Report :=
  match script with
  | .error u => .refused [u.toDiagnostic]
  | .ok s =>
    match s.load with
    | .error ds => .refused ds
    | .ok p => k p

/-- Answer a request, when `read` tells what became of reading a script. -/
def Request.report (read : String → Except Unreadable Script) : Request → Report
  | .build r => .ofScript (read r.file) r.report
  | .run r => .ofScript (read r.file) r.report
  | .version => .printed 0 "flatline 0.1.0\n"
  | .help => .printed 0 usage
  | .nothing =>
    .printed 2 "No valid subcommand was used. Use --help for more information.\n"

end JumpCode
