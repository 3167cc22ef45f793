import SemanticCore.Diagnostic.Format
import SemanticCore.Proofs.Source.Position

/-!
# The caret of a diagnostic

A diagnostic is printed with the line that it is about and a caret on the next line. Both stand
behind two blanks. So the caret is below the character that the location was made for exactly if as
many blanks follow as units of the line come before the character.

* `SourceFile.exists_quoted`: a unit that belongs to no break is a unit of the text of its line.
* `Diagnostic.caretIndent?_ofNat`: how many blanks a column asks for.
* `Diagnostic.exists_pointsAt`: the caret is below the character at the offset of the diagnostic.
-/

namespace SemanticCore

/-- The units of which line breaks consist. -/
def LineBreak.units : List Nat := Text.units "\r\n"

theorem LineBreak.unitsOf_chars_subset (ending : LineBreak) :
    Text.unitsOf ending.chars ⊆ LineBreak.units := by
  cases ending <;> decide

namespace Line

/-- Behind the body of a line stand only units of a break. -/
theorem getElem?_body {l : Line} {k unit : Nat}
    (hUnit : (Text.unitsOf l.chars)[k]? = some unit) (hBreak : unit ∉ LineBreak.units) :
    (Text.unitsOf l.body)[k]? = some unit := by
  obtain ⟨body, ending⟩ := l
  cases ending with
  | none =>
    have hChars : chars ⟨body, none⟩ = body := List.append_nil body
    rwa [hChars] at hUnit
  | some ending =>
    have hChars : chars ⟨body, some ending⟩ = body ++ ending.chars := rfl
    rw [hChars, Text.unitsOf_append] at hUnit
    rcases lt_or_ge k (Text.unitsOf body).length with hIn | hOut
    · rwa [List.getElem?_append_left hIn] at hUnit
    · rw [List.getElem?_append_right hOut] at hUnit
      exact absurd (ending.unitsOf_chars_subset (List.mem_of_getElem? hUnit)) hBreak

end Line

namespace SourceFile

variable {s : SourceFile} {lines : List Line} {o i unit : Nat}

theorem start_eq (h : Line.Cut s.content.toList lines) (hi : i < lines.length) :
    s.start i = (Text.unitsOf ((lines.take i).flatMap Line.chars)).length := by
  rw [start, List.getD_eq_getElem?_getD, getElem?_starts h hi, Option.getD_some]

/-- An offset of a file lies in front of where its line ends. -/
theorem lt_stop (h : Line.Cut s.content.toList lines) (ho : o < Text.unitLength s.content)
    (hLine : IsGreatest (s.begun o) i) :
    o < (Text.unitsOf ((lines.take (i + 1)).flatMap Line.chars)).length := by
  by_cases hNext : i + 1 < lines.length
  · rw [← start_eq h hNext]
    by_contra hLater
    have hBegun : i + 1 ∈ s.begun o := ⟨(lineCount_eq h).symm ▸ hNext, not_lt.mp hLater⟩
    exact absurd (hLine.2 hBegun) (Nat.not_succ_le_self i)
  · rwa [List.take_of_length_le (not_lt.mp hNext), h.flatMap_chars]

/-- A unit of a file is a unit of the line at whose place it is found. -/
theorem getElem?_line (h : Line.Cut s.content.toList lines)
    (hUnit : (Text.units s.content)[o]? = some unit) (hLine : IsGreatest (s.begun o) i)
    (hi : i < lines.length) : (Text.unitsOf lines[i].chars)[o - s.start i]? = some unit := by
  obtain ⟨ho, -⟩ := List.getElem?_eq_some_iff.mp hUnit
  have hStop := lt_stop h ho hLine
  have hStart := hLine.1.2
  rw [Line.flatMap_take_succ hi, Text.length_unitsOf_append] at hStop
  rw [start_eq h hi] at hStart ⊢
  rwa [Text.units, h.split hi, List.append_assoc, Text.unitsOf_append,
    List.getElem?_append_right hStart, Text.unitsOf_append,
    List.getElem?_append_left (by omega)] at hUnit

/-- A unit that belongs to no break stands in the text of its line, as far from where the text
begins as its column says. -/
theorem exists_quoted (hLength : Text.unitLength s.content < 2 ^ 53)
    (hUnit : (Text.units s.content)[o]? = some unit) (hBreak : unit ∉ LineBreak.units) :
    ∃ text line indent, s.lineCol (.ofNat o) = (.ofNat line, .ofNat (indent + 1)) ∧ indent ≤ o ∧
      s.lineText (.ofNat line) = some text ∧ Line.Plain text.toList ∧
      (Text.units text)[indent]? = some unit := by
  obtain ⟨lines, hCut⟩ := Line.exists_cut s.content.toList
  obtain ⟨ho, -⟩ := List.getElem?_eq_some_iff.mp hUnit
  have hLine := isGreatest_lineIndex s o
  have hi : s.lineIndex (.ofNat o) < lines.length := lineCount_eq hCut ▸ hLine.1.1
  have hLines := hCut.length_le
  refine ⟨String.ofList lines[s.lineIndex (.ofNat o)].body, s.lineIndex (.ofNat o) + 1,
    o - s.start (s.lineIndex (.ofNat o)), (located s o).exact (ho.trans hLength), Nat.sub_le _ _,
    lineText_eq hCut hi (hi.trans_le (hLines.trans hLength)), ?_, ?_⟩
  · rw [String.toList_ofList]
    exact hCut.plain _ (List.getElem_mem hi)
  · rw [Text.units, String.toList_ofList]
    exact Line.getElem?_body (getElem?_line hCut hUnit hLine hi) hBreak

end SourceFile

namespace Diagnostic

/-- A column asks for one blank less than it counts, as long as it is exact. -/
theorem caretIndent?_ofNat {n : Nat} (h : n < 2 ^ 53) :
    caretIndent? (.ofNat (n + 1)) = some n := by
  have hTruncate : Number.truncate ((n : Int) : Rat) = n := by
    rw [Number.truncate, if_neg (by simp), Rat.floor_intCast]
  have hPred : Number.ofNat (n + 1) - 1 = .finite ((n : Int) : Rat) :=
    Number.ofNat_sub_one (Nat.succ_pos n) h
  simp only [caretIndent?, hPred, hTruncate]

/-- Without notes there is nothing after the quoted line and the caret. -/
theorem format_of_notes_nil {d : Diagnostic} {source : Option SourceFile} {excerpt : String}
    (hExcerpt : d.excerpt source = .ok excerpt) (hNotes : d.notes = []) :
    d.format source = .ok (d.header ++ excerpt) := by
  rw [format, hExcerpt, hNotes]
  exact congrArg Except.ok (String.append_empty)

/-- A diagnostic is printed as its header, a line of a file, and a caret below a unit of that
line. -/
structure PointsAt (d : Diagnostic) (s : SourceFile) (unit : Nat) (text : String) (indent : Nat) :
    Prop where
  lineText : s.lineText d.location.line = some text
  plain : Line.Plain text.toList
  unit : (Text.units text)[indent]? = some unit
  format : d.format (some s) = .ok (d.header ++ "\n  " ++ text ++ "\n  " ++
    String.ofList (List.replicate indent ' ') ++ "^")

/-- A diagnostic without notes that is located at an offset of a file points at the character there,
unless it is part of a line break. All offsets of the file are exact numbers. -/
theorem exists_pointsAt {s : SourceFile} (hLength : Text.unitLength s.content < 2 ^ 53)
    {d : Diagnostic} {o unit : Nat} (hUnit : (Text.units s.content)[o]? = some unit)
    (hBreak : unit ∉ LineBreak.units) (hLocation : d.location = s.locationAt (.ofNat o))
    (hNotes : d.notes = []) : ∃ text indent, d.PointsAt s unit text indent := by
  obtain ⟨ho, -⟩ := List.getElem?_eq_some_iff.mp hUnit
  obtain ⟨text, line, indent, hLineCol, hIndent, hText, hPlain, hAt⟩ :=
    s.exists_quoted hLength hUnit hBreak
  have hPlace : d.location = ⟨s.name, .ofNat line, .ofNat (indent + 1), .ofNat o⟩ := by
    rw [hLocation, SourceFile.locationAt, hLineCol]
  have hColumn : (0 : Number).lt (.ofNat (indent + 1)) = true := by
    show decide ((((0 : Nat) : Int) : Rat) < (((indent + 1 : Nat) : Int) : Rat)) = true
    exact decide_eq_true (by exact_mod_cast Nat.succ_pos indent)
  have hBlanks := caretIndent?_ofNat (hIndent.trans_lt (ho.trans hLength))
  refine ⟨text, indent, by rw [hPlace, hText], hPlain, hAt, ?_⟩
  have hExcerpt : d.excerpt (some s) = .ok ("\n  " ++ text ++ "\n  " ++
      String.ofList (List.replicate indent ' ') ++ "^") := by
    simp only [excerpt, Option.bind_some, hPlace, hText, hColumn, if_true, hBlanks]
  rw [format_of_notes_nil hExcerpt hNotes]
  simp only [String.append_assoc]

/-- The caret below the last character of `😀b` has two blanks more before it than the line, as many
as the first character has units. -/
theorem exists_pointsAt_pair :
    let s := SourceFile.mk "pair" "a\r\n😀b"
    let d : Diagnostic := ⟨.error, "unknown name", s.locationAt (.ofNat 5), []⟩
    (Text.units s.content)[5]? = some 'b'.toNat ∧ d.PointsAt s 'b'.toNat "😀b" 2 ∧
      d.format (some s) = .ok "pair:2:3: error: unknown name\n  😀b\n    ^" := by
  intro s d
  have hUnit : (Text.units s.content)[5]? = some 'b'.toNat := by decide
  obtain ⟨text, indent, hPoints⟩ :=
    exists_pointsAt (s := s) (d := d) (by decide) hUnit (by decide) rfl rfl
  have hText : s.lineText d.location.line = some "😀b" := by decide +kernel
  obtain rfl := Option.some.inj (hPoints.lineText.symm.trans hText)
  have hUnits : Text.units "😀b" = [0xd83d, 0xde00, 'b'.toNat] := by decide
  have hIndent : indent = 2 := by
    have hAt := hUnits ▸ hPoints.unit
    rcases indent with _ | _ | _ | indent
    · cases hAt
    · cases hAt
    · rfl
    · cases hAt
  have hHeader : d.header = "pair:2:3: error: unknown name" := by decide +kernel
  subst hIndent
  refine ⟨hUnit, hPoints, hPoints.format.trans ?_⟩
  rw [hHeader]
  rfl

end Diagnostic

end SemanticCore
