import SemanticCore.Number.Basic

/-!
# Diagnostics

What a pass reports: a severity, a message, the place it is about, and notes that point at further
places.
-/

namespace SemanticCore

/-- How grave a diagnostic is. -/
inductive Severity where
  | error
  | warning
  | info
  | note
  | fatal
  deriving DecidableEq, Repr, Inhabited

/-- The word for a severity in the text of a diagnostic. -/
def Severity.word : Severity → String
  | .error => "error"
  | .warning => "warning"
  | .info => "info"
  | .note => "note"
  | .fatal => "fatal"

/-- The severity that a word stands for. -/
def Severity.ofWord? (s : String) : Option Severity :=
  [.error, .warning, .info, .note, .fatal].find? fun x => x.word == s

/-- A place in a file. Lines and columns count from one. -/
structure Location where
  file : String
  line : Number
  column : Number
  offset : Number := 0
  deriving DecidableEq, Repr, Inhabited

namespace Location

/-- The file of a location that is nowhere. -/
def unknownFile : String := "<unknown>"

/-- The location that is nowhere. -/
def unknown : Location := ⟨unknownFile, 0, 0, 0⟩

/-- Whether a location is that of what has no place, whatever its offset. -/
def isUnknown (l : Location) : Bool := l.line == 0 && l.column == 0 && l.file == unknownFile

end Location

/-- A further place that belongs to a diagnostic. -/
structure Note where
  message : String
  location : Location
  deriving DecidableEq, Repr, Inhabited

/-- One report of a pass. -/
structure Diagnostic where
  severity : Severity
  message : String
  location : Location
  notes : List Note := []
  deriving DecidableEq, Repr, Inhabited

end SemanticCore
