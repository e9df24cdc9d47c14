/-!
# Words of a command line

The words after a subcommand are options and other words.  An option that takes a value has it in
the next word or in the same word, after an equals sign or, behind a letter, at once.  Letters may
be joined in one word.  After two dashes alone no word is an option.

`Item.scan` tells what the words say, for given options.  It reads no further than a request for
help.
-/

namespace JumpCode

/-- Why a command line asks for nothing. -/
inductive UsageError where
  | unknownCommand (word : String)
  | unknownOption (word : String)
  | unexpectedWord (word : String)
  | missingValue (option : String)
  | unexpectedValue (option : String)
  | invalidValue (option value : String)
  | repeated (option : String)
  | missingFile
  deriving DecidableEq, Repr

def UsageError.message : UsageError → String
  | .unknownCommand w => s!"unknown subcommand '{w}'"
  | .unknownOption w => s!"unknown option '{w}'"
  | .unexpectedWord w => s!"unexpected word '{w}'"
  | .missingValue o => s!"'--{o}' needs a value"
  | .unexpectedValue o => s!"'--{o}' takes no value"
  | .invalidValue o v => s!"'{v}' is not a value of '--{o}'"
  | .repeated o => s!"'--{o}' is given more than once"
  | .missingFile => "no file is given"

inductive OptionKind where
  | flag
  /-- A flag that makes all further words irrelevant. -/
  | help
  | value
  /-- A value that may be a negative number. -/
  | integer
  deriving DecidableEq, Repr

/-- An option with its long name and its letter. -/
structure OptionSpec where
  name : String
  letter : Option Char
  kind : OptionKind
  deriving DecidableEq, Repr

inductive Item where
  | flag (name : String)
  | help
  | value (name text : String)
  | word (text : String)
  deriving DecidableEq, Repr

namespace Item

/-- The part before the first equals sign and, if there is one, the part after it. -/
def splitAtEquals : List Char → List Char × Option (List Char)
  | [] => ([], none)
  | c :: cs =>
    if c = '=' then ([], some cs)
    else
      let (before, after) := splitAtEquals cs
      (c :: before, after)

/-- What one word says: its items, and the option that has its value in the next word. -/
abbrev Reading := List Item × Option OptionSpec

def readLong (specs : List OptionSpec) (word : String) (cs : List Char) :
    Except UsageError Reading :=
  let (name, text) := splitAtEquals cs
  match specs.find? (·.name == String.ofList name) with
  | none => .error (.unknownOption word)
  | some spec =>
    match spec.kind, text with
    | .flag, none => .ok ([.flag spec.name], none)
    | .help, none => .ok ([.help], none)
    | .flag, some _ => .error (.unexpectedValue spec.name)
    | .help, some _ => .error (.unexpectedValue spec.name)
    | _, none => .ok ([], some spec)
    | _, some text => .ok ([.value spec.name (String.ofList text)], none)

def readLetters (specs : List OptionSpec) (word : String) : List Char → Except UsageError Reading
  | [] => .ok ([], none)
  | c :: cs =>
    match specs.find? (·.letter == some c) with
    | none => .error (.unknownOption word)
    | some spec =>
      match spec.kind with
      | .help => .ok ([.help], none)
      | .flag =>
        match readLetters specs word cs with
        | .error e => .error e
        | .ok (items, waiting) => .ok (.flag spec.name :: items, waiting)
      | _ =>
        match cs with
        | [] => .ok ([], some spec)
        | '=' :: text => .ok ([.value spec.name (String.ofList text)], none)
        | text => .ok ([.value spec.name (String.ofList text)], none)

def read (specs : List OptionSpec) (word : String) : Except UsageError Reading :=
  match word.toList with
  | '-' :: '-' :: cs => readLong specs word cs
  | '-' :: c :: cs => readLetters specs word (c :: cs)
  | _ => .ok ([.word word], none)

/-- Whether a word can be the value that an option waits for. -/
def fits (spec : OptionSpec) (word : String) : Bool :=
  match word.toList with
  | '-' :: c :: cs => spec.kind == .integer && (c :: cs).all Char.isDigit
  | _ => true

/-- What the words say, when the option `waiting` has its value in the first of them. -/
def scan (specs : List OptionSpec) :
    (waiting : Option OptionSpec) → List String → Except UsageError (List Item)
  | none, [] => .ok []
  | some spec, [] => .error (.missingValue spec.name)
  | some spec, w :: ws =>
    if fits spec w then
      match scan specs none ws with
      | .error e => .error e
      | .ok items => .ok (.value spec.name w :: items)
    else .error (.missingValue spec.name)
  | none, w :: ws =>
    if w = "--" then .ok (ws.map .word)
    else
      match read specs w with
      | .error e => .error e
      | .ok (items, waiting) =>
        if .help ∈ items then .ok items
        else
          match scan specs waiting ws with
          | .error e => .error e
          | .ok rest => .ok (items ++ rest)

end Item

end JumpCode
