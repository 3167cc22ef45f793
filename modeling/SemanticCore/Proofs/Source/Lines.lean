import SemanticCore.Proofs.Number.Counting
import SemanticCore.Source

/-!
# The lines of a source file

A text falls into lines in one way: each but the last one ends with a break, no line holds a break
elsewhere, and a carriage return does not end a line before a line feed (`Line.Cut`). The offsets
that are kept of a file are those at which these lines begin, so what is cut out between two of them
is a line with its break, and taking the break off leaves the text of the line.

* `Line.exists_cut`, `Line.Cut.starts_eq`: every text falls into lines, and where they begin.
* `SourceFile.Partition`: what a file shows of its lines.
* `SourceFile.exists_partition`: this is so for every text that a file can have.
-/

namespace SemanticCore

/-! ## Cutting out units -/

namespace Text

theorem charUnits_pos (c : Char) : 0 < (charUnits c).length := by
  simp only [charUnits]
  split <;> exact Nat.succ_pos _

theorem length_unitsOf_cons (c : Char) (cs : List Char) :
    (unitsOf (c :: cs)).length = (charUnits c).length + (unitsOf cs).length :=
  List.length_append

theorem unitsOf_append (cs ds : List Char) : unitsOf (cs ++ ds) = unitsOf cs ++ unitsOf ds :=
  List.flatMap_append

theorem length_unitsOf_append (cs ds : List Char) :
    (unitsOf (cs ++ ds)).length = (unitsOf cs).length + (unitsOf ds).length := by
  rw [unitsOf_append, List.length_append]

theorem dropUnits_append (before after : List Char) :
    dropUnits (unitsOf before).length (before ++ after) = after := by
  induction before with
  | nil => cases after <;> rfl
  | cons c before ih =>
    obtain ⟨k, hk⟩ := Nat.exists_eq_add_one.mpr (charUnits_pos c)
    rw [length_unitsOf_cons, hk, Nat.add_right_comm, List.cons_append, dropUnits, hk,
      Nat.add_right_comm, Nat.add_sub_cancel_left, ih]

theorem takeUnits_append (before after : List Char) :
    takeUnits (unitsOf before).length (before ++ after) = before := by
  induction before with
  | nil => cases after <;> rfl
  | cons c before ih =>
    obtain ⟨k, hk⟩ := Nat.exists_eq_add_one.mpr (charUnits_pos c)
    rw [length_unitsOf_cons, hk, Nat.add_right_comm, List.cons_append, takeUnits, hk,
      Nat.add_right_comm, Nat.add_sub_cancel_left, ih]

theorem slice_append (before middle after : List Char) :
    slice (unitsOf before).length (unitsOf (before ++ middle)).length (before ++ middle ++ after) =
      middle := by
  rw [slice, List.append_assoc, dropUnits_append, length_unitsOf_append, Nat.add_sub_cancel_left,
    takeUnits_append]

end Text

/-! ## Lines -/

/-- The ways in which a line ends: a line feed, a carriage return, or both. -/
inductive LineBreak where
  | lf
  | cr
  | crlf
  deriving DecidableEq, Repr

def LineBreak.chars : LineBreak → List Char
  | .lf => ['\n']
  | .cr => ['\r']
  | .crlf => ['\r', '\n']

/-- One line: its characters and the break that ends it, which only the last line lacks. -/
structure Line where
  body : List Char
  ending : Option LineBreak
  deriving DecidableEq, Repr

namespace Line

/-- No character is part of a break. -/
def Plain (cs : List Char) : Prop := ∀ c ∈ cs, c ≠ '\r' ∧ c ≠ '\n'

/-- The characters of a line with its break. -/
def chars (l : Line) : List Char := l.body ++ (l.ending.map LineBreak.chars).getD []

/-- How many units a line takes up with its break. -/
def length (l : Line) : Nat := (Text.unitsOf l.chars).length

/-- A text falls into lines: all but the last one end with a break, and nothing else in them is part
of one. A carriage return is a break by itself only if no line feed follows. -/
inductive Cut : List Char → List Line → Prop
  | last {body : List Char} (hPlain : Plain body) : Cut body [⟨body, none⟩]
  | line {body rest : List Char} {ending : LineBreak} {lines : List Line} (hPlain : Plain body)
      (hWhole : ending = .cr → rest.head? ≠ some '\n') (hRest : Cut rest lines) :
      Cut (body ++ ending.chars ++ rest) (⟨body, some ending⟩ :: lines)

/-- The offsets at which lines start, the first of them at `offset`. -/
def startsFrom (offset : Nat) : List Line → List Nat
  | [] => []
  | l :: ls => offset :: startsFrom (offset + l.length) ls

variable {body cs rest : List Char} {ending : LineBreak} {l : Line} {lines : List Line}
  {offset i : Nat}

theorem Plain.cons {c : Char} (hReturn : c ≠ '\r') (hFeed : c ≠ '\n') (h : Plain cs) :
    Plain (c :: cs) := by
  intro d hd
  rcases List.mem_cons.mp hd with rfl | hd
  · exact ⟨hReturn, hFeed⟩
  · exact h d hd

theorem plain_nil : Plain [] := nofun

/-- A character that is no part of a break belongs to the first line. -/
theorem exists_cut_cons {c : Char} (hReturn : c ≠ '\r') (hFeed : c ≠ '\n') (h : Cut cs lines) :
    ∃ lines', Cut (c :: cs) lines' := by
  cases h with
  | last hPlain => exact ⟨_, .last (hPlain.cons hReturn hFeed)⟩
  | line hPlain hWhole hRest => exact ⟨_, .line (hPlain.cons hReturn hFeed) hWhole hRest⟩

theorem Cut.break (ending : LineBreak) (hWhole : ending = .cr → rest.head? ≠ some '\n')
    (hRest : Cut rest lines) : Cut (ending.chars ++ rest) (⟨[], some ending⟩ :: lines) :=
  .line plain_nil hWhole hRest

theorem exists_cut (cs : List Char) : ∃ lines, Cut cs lines := by
  induction 0, cs using SourceFile.breakEnds.induct with
  | case1 => exact ⟨_, .last plain_nil⟩
  | case2 _ rest ih =>
    obtain ⟨lines, hRest⟩ := ih
    exact ⟨_, .break .crlf nofun hRest⟩
  | case3 _ c rest hPair _ hBreak ih =>
    obtain ⟨lines, hRest⟩ := ih
    rcases hBreak with rfl | rfl
    · refine ⟨_, .break .cr (fun _ hFeed => ?_) hRest⟩
      obtain ⟨rest', rfl⟩ := List.head?_eq_some_iff.mp hFeed
      exact hPair rest' rfl rfl
    · exact ⟨_, .break .lf nofun hRest⟩
  | case4 _ c rest _ _ hBreak ih =>
    obtain ⟨lines, hRest⟩ := ih
    exact exists_cut_cons (fun h => hBreak (.inl h)) (fun h => hBreak (.inr h)) hRest

/-! ## Where the lines begin -/

open SourceFile (breakEnds stripBreak)

theorem breakEnds_plain (h : Plain body) (offset : Nat) :
    breakEnds offset (body ++ rest) = breakEnds (offset + (Text.unitsOf body).length) rest := by
  induction body generalizing offset with
  | nil => rfl
  | cons c body ih =>
    obtain ⟨hReturn, hFeed⟩ := h c List.mem_cons_self
    have hSkip : breakEnds offset (c :: (body ++ rest)) =
        breakEnds (offset + (Text.charUnits c).length) (body ++ rest) := by
      rw [breakEnds]
      · exact if_neg (not_or.mpr ⟨hReturn, hFeed⟩)
      · exact fun _ hEq => absurd hEq hReturn
    rw [List.cons_append, hSkip, ih fun d hd => h d (List.mem_cons_of_mem _ hd),
      Text.length_unitsOf_cons, Nat.add_assoc]

theorem breakEnds_break (hWhole : ending = .cr → rest.head? ≠ some '\n') (offset : Nat) :
    breakEnds offset (ending.chars ++ rest) =
      (offset + (Text.unitsOf ending.chars).length) ::
        breakEnds (offset + (Text.unitsOf ending.chars).length) rest := by
  cases ending with
  | lf => cases rest <;> rfl
  | crlf => rfl
  | cr =>
    have hSingle : breakEnds offset ('\r' :: rest) =
        (offset + 1) :: breakEnds (offset + 1) rest := by
      rw [breakEnds]
      · rfl
      · rintro rest' - rfl
        exact hWhole rfl rfl
    exact hSingle

theorem Cut.starts_eq (h : Cut cs lines) (offset : Nat) :
    offset :: breakEnds offset cs = startsFrom offset lines := by
  induction h generalizing offset with
  | @last body hPlain =>
    have hEnds : breakEnds offset (body ++ []) = [] := breakEnds_plain hPlain offset
    rw [List.append_nil] at hEnds
    rw [hEnds]
    rfl
  | @line body rest ending lines hPlain hWhole _ ih =>
    rw [List.append_assoc, breakEnds_plain hPlain, breakEnds_break hWhole, ih, startsFrom, length,
      chars, Text.length_unitsOf_append, Nat.add_assoc]
    rfl

theorem Cut.flatMap_chars (h : Cut cs lines) : lines.flatMap chars = cs := by
  induction h with
  | last => simp [chars]
  | line _ _ _ ih => simp [chars, ih]

theorem Cut.plain (h : Cut cs lines) : ∀ l ∈ lines, Plain l.body := by
  induction h with
  | last hPlain => simpa using hPlain
  | line hPlain _ _ ih => simpa [hPlain] using ih

theorem flatMap_take_succ (hi : i < lines.length) :
    (lines.take (i + 1)).flatMap chars = (lines.take i).flatMap chars ++ lines[i].chars := by
  rw [List.take_add_one, List.getElem?_eq_getElem hi, List.flatMap_append]
  simp

/-- A line stands between the lines before it and those after it. -/
theorem Cut.split (h : Cut cs lines) (hi : i < lines.length) :
    cs = (lines.take i).flatMap chars ++ lines[i].chars ++ (lines.drop (i + 1)).flatMap chars := by
  rw [← flatMap_take_succ hi, ← List.flatMap_append, List.take_append_drop, h.flatMap_chars]

/-- Every line but one takes up a unit or more. -/
theorem Cut.length_le (h : Cut cs lines) : lines.length ≤ (Text.unitsOf cs).length + 1 := by
  induction h with
  | last => exact Nat.succ_le_succ (Nat.zero_le _)
  | @line body rest ending lines _ _ _ ih =>
    have hBreak : 0 < (Text.unitsOf ending.chars).length := by cases ending <;> decide
    rw [List.length_cons, Text.length_unitsOf_append, Text.length_unitsOf_append]
    omega

theorem length_startsFrom (offset : Nat) (lines : List Line) :
    (startsFrom offset lines).length = lines.length := by
  induction lines generalizing offset with
  | nil => rfl
  | cons l lines ih => rw [startsFrom, List.length_cons, ih, List.length_cons]

/-- A line starts after as many units as the lines before it take up. -/
theorem getElem?_startsFrom (hi : i < lines.length) :
    (startsFrom offset lines)[i]? =
      some (offset + (Text.unitsOf ((lines.take i).flatMap chars)).length) := by
  induction lines generalizing offset i with
  | nil => exact absurd hi (Nat.not_lt_zero i)
  | cons l lines ih =>
    cases i with
    | zero => rfl
    | succ i =>
      rw [startsFrom, List.getElem?_cons_succ, ih (Nat.lt_of_succ_lt_succ hi), List.take_succ_cons,
        List.flatMap_cons, Text.length_unitsOf_append, length, Nat.add_assoc]

/-- What is taken off a line is its break. -/
theorem stripBreak_chars (h : Plain l.body) : stripBreak l.chars = l.body := by
  obtain ⟨body, ending⟩ := l
  have hLast : ∀ c rest, body.reverse = c :: rest → c ≠ '\r' ∧ c ≠ '\n' := by
    intro c rest hCons
    exact h c (List.mem_reverse.mp (hCons ▸ List.mem_cons_self))
  cases ending with
  | none =>
    have hChars : chars ⟨body, none⟩ = body := List.append_nil body
    rw [hChars, stripBreak]
    split
    · rename_i hCons
      exact absurd rfl (hLast _ _ hCons).2
    · rename_i hCons
      exact absurd rfl (hLast _ _ hCons).2
    · rename_i hCons
      exact absurd rfl (hLast _ _ hCons).1
    · rfl
  | some ending =>
    cases ending with
    | lf =>
      have hReverse : (chars ⟨body, some .lf⟩).reverse = '\n' :: body.reverse := by
        simp [chars, LineBreak.chars]
      rw [stripBreak, hReverse]
      split
      · rename_i hCons
        exact absurd rfl (hLast _ _ (List.cons.inj hCons).2).1
      · rename_i hCons
        rw [← (List.cons.inj hCons).2, List.reverse_reverse]
      · rename_i hCons
        cases hCons
      · rename_i hNot _
        exact (hNot _ rfl).elim
    | cr => simp [stripBreak, chars, LineBreak.chars]
    | crlf => simp [stripBreak, chars, LineBreak.chars]

end Line

/-! ## Entries -/

namespace Number

variable {α : Type}

theorem entry?_ofNat (xs : List α) (i : Nat) : entry? xs (.ofNat i) = xs[i]? := by
  unfold entry?
  rw [toNat?_ofNat]

/-- There is no entry at a place that counts as many as there are or more. -/
theorem Counts.entry?_eq_none {xs : List α} {x : Number} {n : Nat} (h : Counts x n)
    (hLength : xs.length ≤ 2 ^ 53) (hn : xs.length ≤ n) : entry? xs x = none := by
  unfold entry?
  cases hNat : x.toNat? with
  | none => rfl
  | some i =>
    have hLe := h.le hn hLength
    rw [eq_ofNat_of_toNat? hNat, le_ofNat, decide_eq_true_iff] at hLe
    exact List.getElem?_eq_none_iff.mpr hLe

theorem entry?_pred_of_lt_one (xs : List α) {k : Int} (h : k < 1) :
    entry? xs (.ofInt k - 1) = none := by
  have hPred : Number.ofInt k - 1 = ofRat ((k : Rat) + -((1 : Nat) : Int)) := rfl
  have hLe : (k : Rat) + -(((1 : Nat) : Int) : Rat) ≤ -1 := by
    exact_mod_cast (by omega : k + -((1 : Nat) : Int) ≤ -1)
  unfold entry?
  rw [hPred, toNat?_ofRat_of_neg hLe]

theorem entry?_pred_of_length_lt {xs : List α} (hLength : xs.length ≤ 2 ^ 53) {k : Int}
    (h : xs.length < k) : entry? xs (.ofInt k - 1) = none := by
  obtain ⟨n, rfl⟩ := Int.eq_ofNat_of_zero_le (by omega : 0 ≤ k)
  have hCounts : Counts (.ofNat n - .ofNat 1) (n - 1) := .ofNat_sub (by omega)
  exact hCounts.entry?_eq_none hLength (by omega)

end Number

/-! ## Files -/

namespace SourceFile

/-- What a file shows of its lines, which are counted from one. -/
structure Partition (s : SourceFile) (lines : List Line) : Prop where
  cut : Line.Cut s.content.toList lines
  lineCount : s.lineCount = lines.length
  lineText : ∀ i (hi : i < lines.length),
    s.lineText (.ofNat (i + 1)) = some (String.ofList lines[i].body)
  outside : ∀ k : Int, k < 1 ∨ lines.length < k → s.lineText (.ofInt k) = none

variable {s : SourceFile} {lines : List Line} {i : Nat}

theorem getElem?_starts (h : Line.Cut s.content.toList lines) (hi : i < lines.length) :
    s.starts[i]? = some (Text.unitsOf ((lines.take i).flatMap Line.chars)).length := by
  rw [starts, h.starts_eq, Line.getElem?_startsFrom hi, Nat.zero_add]

theorem lineCount_eq (h : Line.Cut s.content.toList lines) : s.lineCount = lines.length := by
  rw [lineCount, starts, h.starts_eq, Line.length_startsFrom]

/-- A line ends where the next one begins, and the last one where the file ends. -/
theorem stop_eq (h : Line.Cut s.content.toList lines) (i : Nat) :
    (s.starts[i + 1]?).getD (Text.unitLength s.content) =
      (Text.unitsOf ((lines.take (i + 1)).flatMap Line.chars)).length := by
  by_cases hNext : i + 1 < lines.length
  · rw [getElem?_starts h hNext, Option.getD_some]
  · have hNone : s.starts[i + 1]? = none := by
      rw [List.getElem?_eq_none_iff, ← lineCount, lineCount_eq h]
      exact Nat.not_lt.mp hNext
    rw [hNone, Option.getD_none, List.take_of_length_le (Nat.not_lt.mp hNext), h.flatMap_chars]
    rfl

theorem lineText_eq (h : Line.Cut s.content.toList lines) (hi : i < lines.length)
    (hNumber : i < 2 ^ 53) : s.lineText (.ofNat (i + 1)) = some (String.ofList lines[i].body) := by
  have hSlice : stripBreak (Text.slice (Text.unitsOf ((lines.take i).flatMap Line.chars)).length
      (Text.unitsOf ((lines.take (i + 1)).flatMap Line.chars)).length s.content.toList) =
      lines[i].body := by
    rw [Line.flatMap_take_succ hi, congrArg (Text.slice _ _) (h.split hi), Text.slice_append,
      Line.stripBreak_chars (h.plain _ (List.getElem_mem hi))]
  have hPred : Number.ofNat (i + 1) - 1 = .ofNat i := Number.ofNat_sub_one (Nat.succ_pos i) hNumber
  rw [lineText, hPred, Number.entry?_ofNat, Number.entry?_ofNat, getElem?_starts h hi,
    Option.map_some, stop_eq h]
  exact congrArg (fun cs => some (String.ofList cs)) hSlice

/-- The texts of the lines and the breaks between them are all that a file holds, in order, and it
has no line besides. In a text of `2 ^ 53` units, which is longer than a text can be, the numbers of
two lines could be the same in double precision. -/
theorem exists_partition (s : SourceFile) (hLength : Text.unitLength s.content < 2 ^ 53) :
    ∃ lines, s.Partition lines := by
  obtain ⟨lines, hCut⟩ := Line.exists_cut s.content.toList
  have hLines : lines.length ≤ 2 ^ 53 := hCut.length_le.trans hLength
  have hCount := lineCount_eq hCut
  refine ⟨lines, hCut, hCount, fun i hi => lineText_eq hCut hi (hi.trans_le hLines), ?_⟩
  have hStarts : s.starts.length = lines.length := hCount
  rintro k (hLow | hHigh)
  · rw [lineText, Number.entry?_pred_of_lt_one _ hLow, Option.map_none]
  · rw [lineText, Number.entry?_pred_of_length_lt (hStarts ▸ hLines) (hStarts ▸ hHigh),
      Option.map_none]

theorem exists_partition_mixed :
    Text.unitLength "a\r\n\rb\n" < 2 ^ 53 ∧
      ∃ lines, (SourceFile.mk "mixed" "a\r\n\rb\n").Partition lines ∧ lines.length = 4 := by
  have hLength : Text.unitLength "a\r\n\rb\n" < 2 ^ 53 := by decide
  obtain ⟨lines, hPartition⟩ := exists_partition ⟨"mixed", "a\r\n\rb\n"⟩ hLength
  have hCount : (SourceFile.mk "mixed" "a\r\n\rb\n").lineCount = 4 := by decide
  exact ⟨hLength, lines, hPartition, hPartition.lineCount.symm.trans hCount⟩

end SourceFile

end SemanticCore
