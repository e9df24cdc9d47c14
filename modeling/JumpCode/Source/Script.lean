import JumpCode.Diagnostic
import JumpCode.Text.Blank
import JumpCode.Text.Quoted

/-!
# Scripts

A script is a text with the name that diagnostics give it and the path it was read from.
-/

namespace JumpCode

structure Script where
  name : String
  path : String
  content : String
  deriving DecidableEq, Repr

namespace Script

/-- A script that no file was read for: its name serves as its path. -/
def ofSource (name content : String) : Script := ⟨name, name, content⟩

def isBlank (s : Script) : Bool := Text.isBlank s.content

def describe (s : Script) : String := s!"Script: {s.name} at {Text.quoted s.path}"

end Script

structure Unreadable where
  path : String
  reason : String
  deriving DecidableEq, Repr

def Unreadable.toDiagnostic (u : Unreadable) : Diagnostic where
  stage := .script
  level := .error
  message := s!"Cannot read script at {Text.quoted u.path}: {u.reason}"
  issuer := "flatline.script"
  location := none
  span := none

end JumpCode
