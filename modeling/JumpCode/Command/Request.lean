import JumpCode.Command.Words
import JumpCode.Text.Decimal

/-!
# Requests

A command line asks to build or to run a script, for the version, or for help.  `Request.ofArgs`
reads it.  Only options that can be repeated may be, and every option must have a value that it
understands.
-/

namespace JumpCode

inductive DumpStage where
  | ast | ir
  deriving DecidableEq, Repr

inductive DumpFormat where
  | text | json
  deriving DecidableEq, Repr

structure BuildRequest where
  file : String
  dump : Option DumpStage
  format : DumpFormat
  output : Option String
  verifyLabels : Bool
  verbose : Bool
  deriving DecidableEq, Repr

structure RunRequest where
  file : String
  entry : String
  args : List Int64
  maxSteps : Option Nat
  trace : Bool
  verbose : Bool
  deriving DecidableEq, Repr

inductive Request where
  | build (r : BuildRequest)
  | run (r : RunRequest)
  | version
  | help
  | nothing
  deriving DecidableEq, Repr

namespace DumpStage

def ofName? : String → Option DumpStage
  | "ast" => some .ast
  | "ir" => some .ir
  | _ => none

end DumpStage

namespace DumpFormat

def ofName? : String → Option DumpFormat
  | "text" => some .text
  | "json" => some .json
  | _ => none

end DumpFormat

/-! ### Options given -/

/-- What the items of a command line say together. -/
structure Given where
  file : Option String
  flags : List String
  values : List (String × String)
  deriving DecidableEq, Repr

namespace Given

def empty : Given := ⟨none, [], []⟩

def value? (g : Given) (name : String) : Option String := g.values.lookup name

def allValues (g : Given) (name : String) : List String :=
  (g.values.filter (·.1 == name)).map (·.2)

def has (g : Given) (flag : String) : Bool := g.flags.contains flag

/-- An integer of 64 bits. -/
def int64? (s : String) : Option Int64 :=
  match Text.signed? s.toList with
  | some n =>
    if Int64.minValue.toInt ≤ n ∧ n ≤ Int64.maxValue.toInt then some (Int64.ofInt n) else none
  | none => none

def count? (s : String) : Option Nat :=
  match Text.unsigned? s.toList with
  | some n => if n < UInt64.size then some n else none
  | none => none

def understands (name text : String) : Bool :=
  match name with
  | "dump" => (DumpStage.ofName? text).isSome
  | "format" => (DumpFormat.ofName? text).isSome
  | "arg" => (int64? text).isSome
  | "max-steps" => (count? text).isSome
  | _ => true

/-- Take one more item into account. -/
def add (g : Given) : Item → Except UsageError Given
  | .help => .ok g
  | .flag name =>
    if g.has name then .error (.repeated name) else .ok { g with flags := name :: g.flags }
  | .value name text =>
    if !understands name text then .error (.invalidValue name text)
    else if name ≠ "arg" ∧ (g.value? name).isSome then .error (.repeated name)
    else .ok { g with values := g.values ++ [(name, text)] }
  | .word w =>
    match g.file with
    | none => .ok { g with file := some w }
    | some _ => .error (.unexpectedWord w)

def ofItems (items : List Item) : Except UsageError Given := items.foldlM add empty

end Given

/-! ### Subcommands -/

namespace Request

def verboseSpec : OptionSpec := ⟨"verbose", some 'v', .flag⟩

def helpSpec : OptionSpec := ⟨"help", some 'h', .help⟩

def buildSpecs : List OptionSpec :=
  [⟨"dump", some 'd', .value⟩, ⟨"format", some 'f', .value⟩, ⟨"output", some 'o', .value⟩,
   ⟨"no-verify", none, .flag⟩, verboseSpec, helpSpec]

def runSpecs : List OptionSpec :=
  [⟨"entry", some 'e', .value⟩, ⟨"arg", some 'a', .integer⟩, ⟨"max-steps", none, .value⟩,
   ⟨"trace", none, .flag⟩, verboseSpec, helpSpec]

/-- What the words of a subcommand ask for, when `make` tells what a file and options ask for. -/
def ofWords (specs : List OptionSpec) (make : String → Given → Request) (words : List String) :
    Except UsageError Request :=
  match Item.scan specs none words with
  | .error e => .error e
  | .ok items =>
    match Given.ofItems items with
    | .error e => .error e
    | .ok g =>
      if .help ∈ items then .ok .help
      else
        match g.file with
        | none => .error .missingFile
        | some file => .ok (make file g)

def ofBuild (verbose : Bool) (file : String) (g : Given) : Request :=
  .build
    { file
      dump := (g.value? "dump").bind DumpStage.ofName?
      format := ((g.value? "format").bind DumpFormat.ofName?).getD .text
      output := g.value? "output"
      verifyLabels := !g.has "no-verify"
      verbose := verbose || g.has "verbose" }

def ofRun (verbose : Bool) (file : String) (g : Given) : Request :=
  .run
    { file
      entry := (g.value? "entry").getD "main"
      args := (g.allValues "arg").filterMap Given.int64?
      maxSteps := (g.value? "max-steps").bind Given.count?
      trace := g.has "trace"
      verbose := verbose || g.has "verbose" }

/-- What letters before the subcommand say: whether to be verbose, or a request of their own. -/
def ofLetters (word : String) (verbose : Bool) : List Char → Except UsageError (Bool ⊕ Request)
  | [] => .ok (.inl verbose)
  | 'v' :: cs => if verbose then .error (.repeated "verbose") else ofLetters word true cs
  | 'V' :: _ => .ok (.inr .version)
  | 'h' :: _ => .ok (.inr .help)
  | _ => .error (.unknownOption word)

/-- What the words after `help` ask for: they may name one subcommand. -/
def ofHelp : List String → Except UsageError Request
  | [] => .ok .help
  | w :: ws =>
    if w ∈ ["build", "run", "help"] then
      match ws with
      | [] => .ok .help
      | w :: _ => .error (.unknownCommand w)
    else .error (.unknownCommand w)

/-- What the words from the subcommand on, or from an option before it on, ask for. -/
def ofArgsAfter (verbose : Bool) : List String → Except UsageError Request
  | [] => .ok .nothing
  | w :: ws =>
    match w with
    | "build" => ofWords buildSpecs (ofBuild verbose) ws
    | "run" => ofWords runSpecs (ofRun verbose) ws
    | "help" => ofHelp ws
    | "--help" => .ok .help
    | "--version" => .ok .version
    | "--verbose" => if verbose then .error (.repeated "verbose") else ofArgsAfter true ws
    | "--" =>
      match ws with
      | [] => .ok .nothing
      | w :: _ => .error (.unexpectedWord w)
    | _ =>
      match w.toList with
      | '-' :: '-' :: _ => .error (.unknownOption w)
      | '-' :: c :: cs =>
        match ofLetters w verbose (c :: cs) with
        | .error e => .error e
        | .ok (.inl verbose) => ofArgsAfter verbose ws
        | .ok (.inr r) => .ok r
      | _ => .error (.unknownCommand w)

def ofArgs (args : List String) : Except UsageError Request := ofArgsAfter false args

def file? : Request → Option String
  | .build r => some r.file
  | .run r => some r.file
  | _ => none

end Request

end JumpCode
