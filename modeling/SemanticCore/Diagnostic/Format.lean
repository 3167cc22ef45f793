import SemanticCore.Number.Decimal
import SemanticCore.Source

/-!
# The text of a diagnostic

A header line; the source line with a caret below the column, when the line is known; then one line
for each note. There is no text when the column is none that a caret can be below.

* `Diagnostic.caretIndent?`: how far the caret is from the start of its line.
* `Diagnostic.format`, `Diagnostic.formatAll`: diagnostics as text.
-/

namespace SemanticCore

/-- Why diagnostics have no text: the column of a caret is infinite, or too close to zero. -/
inductive FormatError where
  | column (given : Number)
  deriving DecidableEq, Repr

/-- File, line and column, as they stand at the start of a line. -/
def Location.header (l : Location) : String :=
  l.file ++ ":" ++ l.line.text ++ ":" ++ l.column.text

namespace Diagnostic

/-- The first line: where it is, how grave, and what is said. A file without a name is unknown. -/
def header (d : Diagnostic) : String :=
  let place := if d.location.file.isEmpty then { d.location with file := Location.unknownFile }
    else d.location
  place.header ++ ": " ++ d.severity.word ++ ": " ++ d.message

/-- How many blanks stand before the caret of a column: the integer part of one less than the
column. The difference is rounded, so a column close to zero asks for fewer than none. -/
def caretIndent? (column : Number) : Option Nat :=
  match column - 1 with
  | .finite q =>
    match Number.truncate q with
    | .ofNat n => some n
    | .negSucc _ => none
  | _ => none

/-- The quoted source line and the caret, when the file has the line and the column is positive. -/
def excerpt (d : Diagnostic) (source : Option SourceFile) : Except FormatError String :=
  match source.bind (·.lineText d.location.line) with
  | some text =>
    if (0 : Number).lt d.location.column then
      match caretIndent? d.location.column with
      | some n => .ok ("\n  " ++ text ++ "\n  " ++ String.ofList (List.replicate n ' ') ++ "^")
      | none => .error (.column d.location.column)
    else .ok ""
  | none => .ok ""

/-- The line of a note, after the break before it. -/
def noteLine (n : Note) : String := "\n" ++ n.location.header ++ ": note: " ++ n.message

/-- The text of a diagnostic: its header, the source line with the caret, and its notes. -/
def format (d : Diagnostic) (source : Option SourceFile) : Except FormatError String := do
  let excerpt ← d.excerpt source
  return d.header ++ excerpt ++ String.join (d.notes.map noteLine)

/-- Diagnostics as text, a line break between two of them. -/
def formatAll (ds : List Diagnostic) (source : Option SourceFile) : Except FormatError String := do
  let texts ← ds.mapM (·.format source)
  return "\n".intercalate texts

end Diagnostic

end SemanticCore
