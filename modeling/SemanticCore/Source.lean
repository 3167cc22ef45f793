import SemanticCore.Diagnostic.Basic
import SemanticCore.Text.Units

/-!
# Source files

Offsets count 16-bit units from the start of the file. What is kept of a file besides its text are
the offsets at which its lines start, one after each line break (`SourceFile.starts`); a break
belongs to the line that it ends.

* `SourceFile.lineText`: the text of a line without its break.
* `SourceFile.lineCol`: the line and column of an offset.
-/

namespace SemanticCore

/-- A file: its name and its text. -/
structure SourceFile where
  name : String
  content : String
  deriving DecidableEq, Repr, Inhabited

namespace SourceFile

/-- The offsets at which the line breaks of some characters end, the first of which is at `offset`.
A carriage return and the line feed after it are one break. -/
def breakEnds (offset : Nat) : List Char → List Nat
  | [] => []
  | '\r' :: '\n' :: rest => (offset + 2) :: breakEnds (offset + 2) rest
  | c :: rest =>
    let next := offset + (Text.charUnits c).length
    if c = '\r' ∨ c = '\n' then next :: breakEnds next rest else breakEnds next rest

/-- Some characters without the line break at their end, if there is one. -/
def stripBreak (cs : List Char) : List Char :=
  match cs.reverse with
  | '\n' :: '\r' :: rest => rest.reverse
  | '\n' :: rest => rest.reverse
  | '\r' :: rest => rest.reverse
  | _ => cs

/-- The last of the places from `lo` to `hi` that fit, if all that fit come first; `lo` if none
does. -/
def bisect (fits : Nat → Bool) (lo hi : Nat) : Nat :=
  if lo < hi then
    let mid := (lo + hi + 1) / 2
    if fits mid then bisect fits mid hi else bisect fits lo (mid - 1)
  else lo
termination_by hi - lo

/-- The offsets at which the lines start. -/
def starts (s : SourceFile) : List Nat := 0 :: breakEnds 0 s.content.toList

/-- How many lines there are; what is after the last line break is a line, too. -/
def lineCount (s : SourceFile) : Nat := s.starts.length

/-- The text of a line, counted from one, without its break. -/
def lineText (s : SourceFile) (line : Number) : Option String :=
  (Number.entry? s.starts (line - 1)).map fun start =>
    let stop := (Number.entry? s.starts line).getD (Text.unitLength s.content)
    String.ofList (stripBreak (Text.slice start stop s.content.toList))

/-- The place among the starts of the last one at or before an offset; the first place if there is
none. -/
def lineIndex (s : SourceFile) (offset : Number) : Nat :=
  bisect (fun i => (Number.ofNat (s.starts.getD i 0)).le offset) 0 (s.starts.length - 1)

/-- The line and column, both counted from one, of an offset. An offset past the end belongs to the
last line. -/
def lineCol (s : SourceFile) (offset : Number) : Number × Number :=
  let i := s.lineIndex offset
  (.ofNat (i + 1), offset - .ofNat (s.starts.getD i 0) + 1)

/-- The location of an offset. -/
def locationAt (s : SourceFile) (offset : Number) : Location :=
  let (line, column) := s.lineCol offset
  { file := s.name, line, column, offset }

end SourceFile

end SemanticCore
