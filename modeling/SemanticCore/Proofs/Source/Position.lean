import Mathlib.Data.List.GetD
import Mathlib.Data.Prod.Lex
import Mathlib.Data.Set.Card
import Mathlib.Order.Bounds.Basic
import SemanticCore.Proofs.Source.Lines

/-!
# Lines and columns of offsets

The line of an offset is one more than the number of line breaks that end at or before it, and its
column is counted from where that line begins. It is found by bisection among the offsets at which
lines begin. Offsets and columns are numbers in double precision, so columns are exact for offsets
below `2 ^ 53`, and only rounded beyond.

* `SourceFile.isGreatest_bisect`: bisection finds the last place that fits.
* `SourceFile.BreakEndsAt`: where line breaks end, and `SourceFile.mem_breakEnds` that these are the
  offsets found.
* `SourceFile.Located`: the line and the column of an offset.
* `SourceFile.positions_increase`: how offsets are located in every file.
-/

namespace SemanticCore.SourceFile

/-! ## Bisection -/

section Bisection

variable {fits : Nat → Bool} {last lo hi : Nat}

/-- As long as `lo` fits and nothing beyond `hi` does, the last place that fits is between them. -/
theorem isGreatest_bisect (hFirst : ∀ i j, i ≤ j → j ≤ last → fits j → fits i) (hLe : lo ≤ hi)
    (hLast : hi ≤ last) (hFits : fits lo) (hBeyond : ∀ i ≤ last, fits i → i ≤ hi) :
    IsGreatest {i | i ≤ last ∧ fits i} (bisect fits lo hi) := by
  induction lo, hi using bisect.induct fits with
  | case1 lo hi hLt mid hMid ih =>
    rw [bisect, if_pos hLt]
    simp only [mid] at hMid ih
    rw [if_pos hMid]
    exact ih (by omega) hLast hMid hBeyond
  | case2 lo hi hLt mid hMid ih =>
    rw [bisect, if_pos hLt]
    simp only [mid] at hMid ih
    rw [if_neg hMid]
    refine ih (by omega) (by omega) hFits fun i hi' hFitsAt => ?_
    by_contra hAbove
    exact hMid (hFirst _ i (by omega) hi' hFitsAt)
  | case3 lo hi hDone =>
    rw [bisect, if_neg hDone]
    exact ⟨⟨hLe.trans hLast, hFits⟩, fun i hi' => (hBeyond i hi'.1 hi'.2).trans (not_lt.mp hDone)⟩

end Bisection

/-! ## Where line breaks end -/

/-- A line break ends with a character: with a line feed, or with a carriage return that no line
feed follows. -/
def EndsBreak (c : Char) (after : List Char) : Prop :=
  c = '\n' ∨ c = '\r' ∧ after.head? ≠ some '\n'

/-- One of the line breaks of a file ends at an offset. -/
def BreakEndsAt (s : SourceFile) (e : Nat) : Prop :=
  ∃ before c after, s.content.toList = before ++ c :: after ∧ EndsBreak c after ∧
    e = (Text.unitsOf (before ++ [c])).length

instance (c : Char) (after : List Char) : Decidable (EndsBreak c after) :=
  inferInstanceAs (Decidable (_ ∨ _ ∧ _))

variable {s : SourceFile} {c : Char} {cs rest : List Char} {offset e o i : Nat}

/-- Whether a break ends with a character can be told from the character after it. -/
theorem breakEnds_cons (offset : Nat) (c : Char) (rest : List Char) :
    breakEnds offset (c :: rest) =
      if EndsBreak c rest then (offset + (Text.charUnits c).length) ::
        breakEnds (offset + (Text.charUnits c).length) rest
      else breakEnds (offset + (Text.charUnits c).length) rest := by
  by_cases hPair : c = '\r' ∧ rest.head? = some '\n'
  · obtain ⟨rfl, hFeed⟩ := hPair
    obtain ⟨rest', rfl⟩ := List.head?_eq_some_iff.mp hFeed
    have hNot : ¬ EndsBreak '\r' ('\n' :: rest') := by
      rintro (hEq | ⟨-, hNe⟩)
      · exact absurd hEq (by decide)
      · exact hNe rfl
    rw [if_neg hNot]
    cases rest' <;> rfl
  · rw [breakEnds]
    · have hEnds : (c = '\r' ∨ c = '\n') ↔ EndsBreak c rest := by
        rw [EndsBreak, and_iff_left_of_imp fun hReturn hFeed => hPair ⟨hReturn, hFeed⟩, or_comm]
      simp only [hEnds]
    · rintro rest' rfl rfl
      exact hPair ⟨rfl, rfl⟩

/-- A character of a list is the first one or one of the others. -/
theorem exists_split_cons {P : List Char → Char → List Char → Prop} :
    (∃ before d after, c :: cs = before ++ d :: after ∧ P before d after) ↔
      P [] c cs ∨ ∃ before d after, cs = before ++ d :: after ∧ P (c :: before) d after := by
  constructor
  · rintro ⟨before, d, after, hSplit, h⟩
    cases before with
    | nil =>
      obtain ⟨rfl, rfl⟩ := List.cons.inj hSplit
      exact .inl h
    | cons b before =>
      obtain ⟨rfl, rfl⟩ := List.cons.inj hSplit
      exact .inr ⟨before, d, after, rfl, h⟩
  · rintro (h | ⟨before, d, after, rfl, h⟩)
    · exact ⟨[], c, cs, rfl, h⟩
    · exact ⟨c :: before, d, after, rfl, h⟩

theorem mem_breakEnds : e ∈ breakEnds offset cs ↔
    ∃ before c after, cs = before ++ c :: after ∧ EndsBreak c after ∧
      e = offset + (Text.unitsOf (before ++ [c])).length := by
  induction cs generalizing offset with
  | nil => simp [breakEnds]
  | cons c cs ih =>
    have hFirst : (Text.unitsOf ([] ++ [c])).length = (Text.charUnits c).length := by
      simp [Text.unitsOf]
    rw [exists_split_cons, breakEnds_cons, hFirst]
    simp only [List.cons_append, Text.length_unitsOf_cons, ← Nat.add_assoc, ← ih]
    split
    · rename_i hEnds
      rw [List.mem_cons, and_iff_right hEnds]
    · rename_i hEnds
      rw [or_iff_right fun h => hEnds h.1]

theorem breakEndsAt_iff : s.BreakEndsAt e ↔ e ∈ breakEnds 0 s.content.toList := by
  simp only [BreakEndsAt, mem_breakEnds, Nat.zero_add]

theorem lt_of_mem_breakEnds (h : e ∈ breakEnds offset cs) : offset < e := by
  obtain ⟨before, c, after, -, -, rfl⟩ := mem_breakEnds.mp h
  have hPos := Text.charUnits_pos c
  rw [Text.length_unitsOf_append, Text.length_unitsOf_cons]
  omega

theorem pairwise_breakEnds (offset : Nat) (cs : List Char) :
    (breakEnds offset cs).Pairwise (· < ·) := by
  induction cs generalizing offset with
  | nil => exact .nil
  | cons c cs ih =>
    rw [breakEnds_cons]
    split
    · exact .cons (fun _ => lt_of_mem_breakEnds) (ih _)
    · exact ih _

theorem pairwise_starts (s : SourceFile) : s.starts.Pairwise (· < ·) :=
  .cons (fun _ => lt_of_mem_breakEnds) (pairwise_breakEnds 0 _)

/-! ## The line of an offset -/

/-- The offset at which the line at a place begins. -/
def start (s : SourceFile) (i : Nat) : Nat := s.starts.getD i 0

/-- The places of the lines that begin at or before an offset. -/
def begun (s : SourceFile) (o : Nat) : Set Nat := {i | i < s.lineCount ∧ s.start i ≤ o}

/-- A line after the first begins where a break ends. -/
theorem start_succ (hi : i < (breakEnds 0 s.content.toList).length) :
    s.start (i + 1) = (breakEnds 0 s.content.toList)[i] :=
  List.getD_eq_getElem _ _ hi

theorem start_lt_start {j : Nat} (hij : i < j) (hj : j < s.lineCount) : s.start i < s.start j := by
  have hi : i < s.lineCount := hij.trans hj
  rw [start, start, List.getD_eq_getElem _ _ hi, List.getD_eq_getElem _ _ hj]
  exact List.pairwise_iff_getElem.mp (pairwise_starts s) i j hi hj hij

theorem start_le_start {j : Nat} (hij : i ≤ j) (hj : j < s.lineCount) : s.start i ≤ s.start j := by
  rcases hij.lt_or_eq with hLt | rfl
  · exact (start_lt_start hLt hj).le
  · exact le_rfl

theorem isGreatest_lineIndex (s : SourceFile) (o : Nat) :
    IsGreatest (s.begun o) (s.lineIndex (.ofNat o)) := by
  have hCount : s.lineCount - 1 + 1 = s.lineCount := Nat.sub_add_cancel (Nat.succ_pos _)
  have hFits : ∀ i, (Number.ofNat (s.starts.getD i 0)).le (.ofNat o) = true ↔ s.start i ≤ o := by
    intro i
    rw [Number.le_ofNat, decide_eq_true_iff, start]
  have hBegun : s.begun o = {i | i ≤ s.lineCount - 1 ∧
      (Number.ofNat (s.starts.getD i 0)).le (.ofNat o) = true} := by
    ext i
    simp only [begun, Set.mem_ofPred_eq, hFits]
    omega
  rw [hBegun]
  refine isGreatest_bisect (fun i j hij hj hFit => ?_) (Nat.zero_le _) le_rfl ?_
    fun i hi _ => hi
  · rw [hFits] at hFit ⊢
    exact (start_le_start hij (by omega)).trans hFit
  · rw [hFits]
    exact Nat.zero_le o

/-- The breaks that end at or before an offset are those of the lines before the last one that
begins there. -/
theorem ncard_breaks (h : IsGreatest (s.begun o) i) : {e | s.BreakEndsAt e ∧ e ≤ o}.ncard = i := by
  have hEnds : {e | s.BreakEndsAt e ∧ e ≤ o} =
      (((breakEnds 0 s.content.toList).take i).toFinset : Set Nat) := by
    ext e
    rw [List.coe_toFinset, Set.mem_ofPred_eq, Set.mem_ofPred_eq, breakEndsAt_iff,
      List.mem_take_iff_getElem]
    constructor
    · rintro ⟨hMem, hLe⟩
      obtain ⟨j, hj, rfl⟩ := List.mem_iff_getElem.mp hMem
      have hBegun : j + 1 ∈ s.begun o := ⟨Nat.succ_lt_succ hj, (start_succ hj).trans_le hLe⟩
      exact ⟨j, lt_min (h.2 hBegun) hj, rfl⟩
    · rintro ⟨j, hj, rfl⟩
      obtain ⟨hLine, hj⟩ := lt_min_iff.mp hj
      exact ⟨List.getElem_mem hj,
        (start_succ hj).symm.trans_le ((start_le_start hLine h.1.1).trans h.1.2)⟩
  have hNodup : ((breakEnds 0 s.content.toList).take i).Nodup :=
    ((pairwise_breakEnds 0 _).imp Nat.ne_of_lt).sublist (List.take_sublist _ _)
  have hLength : i ≤ (breakEnds 0 s.content.toList).length := Nat.lt_succ_iff.mp h.1.1
  rw [hEnds, Set.ncard_coe_finset, List.toFinset_card_of_nodup hNodup, List.length_take,
    min_eq_left hLength]

/-- The line with a number begins at an offset: there the file begins or a break ends, and the other
lines up to there are the lines before. -/
def Begins (s : SourceFile) (line e : Nat) : Prop :=
  (e = 0 ∨ s.BreakEndsAt e) ∧ line = 1 + {b | s.BreakEndsAt b ∧ b ≤ e}.ncard

theorem begins_start (hi : i < s.lineCount) : s.Begins (i + 1) (s.start i) := by
  have hGreatest : IsGreatest (s.begun (s.start i)) i := by
    refine ⟨⟨hi, le_rfl⟩, fun j hj => ?_⟩
    by_contra hLater
    exact absurd (start_lt_start (not_le.mp hLater) hj.1) (not_lt.mpr hj.2)
  refine ⟨?_, by rw [ncard_breaks hGreatest, Nat.add_comm]⟩
  cases i with
  | zero => exact .inl rfl
  | succ i =>
    have hEnd : i < (breakEnds 0 s.content.toList).length := Nat.lt_of_succ_lt_succ hi
    rw [start_succ hEnd, breakEndsAt_iff]
    exact .inr (List.getElem_mem hEnd)

/-! ## Columns -/

/-- An offset belongs to a line and a column. -/
structure Located (s : SourceFile) (o line column : Nat) : Prop where
  lineCol : ∃ found, s.lineCol (.ofNat o) = (.ofNat line, found) ∧ (1 : Number).le found
  /-- Columns are not rounded as long as offsets are not. -/
  exact : o < 2 ^ 53 → s.lineCol (.ofNat o) = (.ofNat line, .ofNat column)
  one_le_line : 1 ≤ line
  line_le : line ≤ s.lineCount
  one_le_column : 1 ≤ column
  line_eq : line = 1 + {e | s.BreakEndsAt e ∧ e ≤ o}.ncard
  begins : ∃ start, s.Begins line start ∧ start + column - 1 = o

/-- The line and the column of an offset, without rounding. -/
def position (s : SourceFile) (o : Nat) : ℕ ×ₗ ℕ :=
  let i := s.lineIndex (.ofNat o)
  toLex (i + 1, o - s.start i + 1)

theorem located (s : SourceFile) (o : Nat) :
    s.Located o (ofLex (s.position o)).1 (ofLex (s.position o)).2 := by
  have hGreatest := isGreatest_lineIndex s o
  obtain ⟨hLine, hLe⟩ := hGreatest.1
  have hOffset : Number.Counts (.ofNat o - .ofNat (s.start (s.lineIndex (.ofNat o))))
      (o - s.start (s.lineIndex (.ofNat o))) := .ofNat_sub hLe
  have hColumn := hOffset.add (.ofNat 1)
  refine ⟨⟨_, rfl, ?_⟩, fun hExact => ?_, Nat.succ_pos _, hLine, Nat.succ_pos _, ?_, ?_⟩
  · exact hColumn.le (Nat.succ_pos _) (by decide)
  · have hExactly := hOffset.eq_ofNat (by omega)
    have hSum : Number.ofNat (o - s.start (s.lineIndex (.ofNat o))) + .ofNat 1 =
        .ofNat (o - s.start (s.lineIndex (.ofNat o)) + 1) := Number.ofNat_add (by omega)
    exact congrArg (Prod.mk _) ((congrArg (· + .ofNat 1) hExactly).trans hSum)
  · rw [ncard_breaks hGreatest]
    exact Nat.add_comm _ _
  · refine ⟨_, begins_start hLine, ?_⟩
    simp only [position, ofLex_toLex]
    omega

theorem strictMono_position (s : SourceFile) : StrictMono s.position := by
  intro o o' hLt
  have h := isGreatest_lineIndex s o
  have h' := isGreatest_lineIndex s o'
  rw [position, position, Prod.Lex.toLex_lt_toLex]
  have hLine : s.lineIndex (.ofNat o) ≤ s.lineIndex (.ofNat o') :=
    h'.2 ⟨h.1.1, h.1.2.trans hLt.le⟩
  rcases hLine.lt_or_eq with hBefore | hSame
  · exact .inl (Nat.succ_lt_succ hBefore)
  · refine .inr ⟨congrArg (· + 1) hSame, ?_⟩
    have hLe := h.1.2
    rw [hSame] at hLe ⊢
    omega

/-- Every offset has a line and a column, also one past the end of a file, and of two offsets the
greater one is farther on. -/
theorem positions_increase (s : SourceFile) :
    ∃ position : ℕ → ℕ ×ₗ ℕ, StrictMono position ∧
      (∀ o, s.Located o (ofLex (position o)).1 (ofLex (position o)).2) ∧
      Set.InjOn (fun o : ℕ => s.lineCol (.ofNat o)) (Set.Iio (2 ^ 53)) := by
  refine ⟨s.position, strictMono_position s, located s, fun o ho o' ho' hSame => ?_⟩
  have hNumbers := ((located s o).exact ho).symm.trans (hSame.trans ((located s o').exact ho'))
  obtain ⟨hLine, hColumn⟩ := Prod.mk.inj hNumbers
  refine (strictMono_position s).injective (ofLex.injective (Prod.ext ?_ ?_))
  · exact Number.ofNat_injective hLine
  · exact Number.ofNat_injective hColumn

/-- From `2 ^ 53` on, columns are rounded. So two offsets, both of them numbers of double precision,
can have one position, and counting back from the column can miss the offset. -/
theorem positions_rounded :
    ¬ Set.InjOn (fun o : ℕ => (SourceFile.mk "far" "\n").lineCol (.ofNat o))
      {o | (Number.ofNat o).IsDouble} ∧
    ¬ ∃ line column start : ℕ,
      (SourceFile.mk "far" "\n").lineCol (.ofNat (2 ^ 53 + 2)) = (.ofNat line, .ofNat column) ∧
        (SourceFile.mk "far" "\n").Begins line start ∧ start + column - 1 = 2 ^ 53 + 2 := by
  have hNear : (SourceFile.mk "far" "\n").lineCol (.ofNat (2 ^ 53)) =
      (.ofNat 2, .ofNat (2 ^ 53)) := by
    decide +kernel
  have hFar : (SourceFile.mk "far" "\n").lineCol (.ofNat (2 ^ 53 + 2)) =
      (.ofNat 2, .ofNat (2 ^ 53)) := by
    decide +kernel
  constructor
  · intro hInjective
    have hBoth : (Number.ofNat (2 ^ 53)).IsDouble ∧ (Number.ofNat (2 ^ 53 + 2)).IsDouble := by
      simp only [Number.IsDouble, Number.ofNat, Number.ofInt]
      decide +kernel
    exact absurd (hInjective hBoth.1 hBoth.2 (hNear.trans hFar.symm)) (by decide)
  · rintro ⟨line, column, start, hLineCol, ⟨hStart, -⟩, hBack⟩
    have hColumn : 2 ^ 53 = column :=
      Number.ofNat_injective (Prod.mk.inj (hFar.symm.trans hLineCol)).2
    have hThree : start = 3 := by omega
    rw [hThree, breakEndsAt_iff] at hStart
    exact absurd hStart (by decide)

end SemanticCore.SourceFile
