import Mathlib.Data.List.TakeWhile
import SemanticCore.Proofs.Number.Shortest

/-!
# Reading decimals

`Decimal.read` is the rational that a decimal text stands for: digits with or without a point, and
with or without an exponent. It takes back what `DecimalStyle.render` writes
(`Decimal.read_render`).
-/

namespace SemanticCore.Decimal

/-! ## Digits -/

def IsDigits (cs : List Char) : Prop := ∀ c ∈ cs, c.isDigit = true

variable {cs ds : List Char} {c : Char}

theorem isDigits_toDigits (n : Nat) : IsDigits (Nat.toDigits 10 n) :=
  fun _ hc => Nat.isDigit_of_mem_toDigits (by decide) (by decide) hc

theorem IsDigits.append (h : IsDigits cs) (h' : IsDigits ds) : IsDigits (cs ++ ds) :=
  fun c hc => (List.mem_append.mp hc).elim (h c) (h' c)

theorem isDigits_zeros (n : Nat) : IsDigits (List.replicate n '0') := by
  intro c hc
  rw [List.eq_of_mem_replicate hc]
  decide

theorem IsDigits.of_subset (h : IsDigits cs) (hSub : ds ⊆ cs) : IsDigits ds :=
  fun c hc => h c (hSub hc)

theorem IsDigits.not_mem (h : IsDigits cs) (hc : c.isDigit = false) : c ∉ cs := by
  intro hMem
  rw [h c hMem] at hc
  cases hc

def ofDigits (cs : List Char) : Nat := Nat.ofDigitChars 10 cs 0

@[simp]
theorem ofDigits_toDigits (n : Nat) : ofDigits (Nat.toDigits 10 n) = n :=
  Nat.ofDigitChars_ten_toDigits

theorem ofDigits_append_zeros (cs : List Char) (n : Nat) :
    ofDigits (cs ++ List.replicate n '0') = ofDigits cs * 10 ^ n := by
  rw [ofDigits, Nat.ofDigitChars_append, Nat.ofDigitChars_replicate_zero, mul_comm, ofDigits]

theorem ofDigits_zeros_append (cs : List Char) (n : Nat) :
    ofDigits (List.replicate n '0' ++ cs) = ofDigits cs := by
  rw [ofDigits, Nat.ofDigitChars_append, Nat.ofDigitChars_replicate_zero, mul_zero, ofDigits]

/-! ## Parts of a text -/

/-- What stands before a character, or the whole text. -/
def before (c : Char) (cs : List Char) : List Char := cs.takeWhile (· != c)

/-- What stands after a character, if it occurs. -/
def after (c : Char) (cs : List Char) : List Char := (cs.dropWhile (· != c)).drop 1

theorem forall_ne (h : c ∉ cs) : ∀ a ∈ cs, (a != c) = true := by
  intro a ha
  simp only [bne_iff_ne]
  rintro rfl
  exact h ha

theorem before_append (h : c ∉ cs) : before c (cs ++ c :: ds) = cs := by
  simp [before, List.takeWhile_append_of_pos (forall_ne h)]

theorem after_append (h : c ∉ cs) : after c (cs ++ c :: ds) = ds := by
  simp [after, List.dropWhile_append_of_pos (forall_ne h)]

theorem before_of_not_mem (h : c ∉ cs) : before c cs = cs := by
  have hEnd : before c (cs ++ []) = cs ++ before c [] :=
    List.takeWhile_append_of_pos (forall_ne h)
  simpa [before] using hEnd

theorem after_of_not_mem (h : c ∉ cs) : after c cs = [] := by
  have hEnd : (cs ++ []).dropWhile (· != c) = [].dropWhile (· != c) :=
    List.dropWhile_append_of_pos (forall_ne h)
  rw [after, ← List.append_nil cs, hEnd]
  rfl

/-! ## Reading -/

def readExponent : List Char → Int
  | '+' :: cs => ofDigits cs
  | '-' :: cs => -ofDigits cs
  | _ => 0

/-- The rational with a whole part, a fraction and an exponent. -/
def assemble (whole fraction : List Char) (exponent : Int) : Rat :=
  ofDigits (whole ++ fraction) * (10 : Rat) ^ (exponent - fraction.length)

/-- The rational that a decimal text stands for. -/
def read (cs : List Char) : Rat :=
  assemble (before '.' (before 'e' cs)) (after '.' (before 'e' cs)) (readExponent (after 'e' cs))

theorem read_whole (h : IsDigits cs) : read cs = ofDigits cs := by
  have hExp := h.not_mem (c := 'e') rfl
  have hPoint := h.not_mem (c := '.') rfl
  rw [read, before_of_not_mem hExp, after_of_not_mem hExp, before_of_not_mem hPoint,
    after_of_not_mem hPoint]
  simp [assemble, readExponent]

theorem not_mem_of_point (h : IsDigits cs) (h' : IsDigits ds) : 'e' ∉ cs ++ '.' :: ds := by
  simp [h.not_mem (c := 'e') rfl, h'.not_mem (c := 'e') rfl]

theorem read_point (h : IsDigits cs) (h' : IsDigits ds) :
    read (cs ++ '.' :: ds) = assemble cs ds 0 := by
  have hExp := not_mem_of_point h h'
  have hPoint := h.not_mem (c := '.') rfl
  rw [read, before_of_not_mem hExp, after_of_not_mem hExp, before_append hPoint,
    after_append hPoint]
  rfl

theorem read_exponent (hExp : 'e' ∉ cs) (exponent : List Char) :
    read (cs ++ 'e' :: exponent) =
      assemble (before '.' cs) (after '.' cs) (readExponent exponent) := by
  rw [read, before_append hExp, after_append hExp]

/-! ## What is written is read back -/

/-- Digits are those that are left after the zeros at the end are taken off, and these zeros. -/
theorem exists_zeros (cs : List Char) :
    ∃ k, cs = DecimalStyle.trimZeros cs ++ List.replicate k '0' := by
  refine ⟨(cs.reverse.takeWhile (· == '0')).length, ?_⟩
  have hZeros : (cs.reverse.takeWhile (· == '0')).reverse
      = List.replicate (cs.reverse.takeWhile (· == '0')).length '0' := by
    rw [List.eq_replicate_iff]
    refine ⟨List.length_reverse, fun c hc => ?_⟩
    exact beq_iff_eq.mp (List.mem_takeWhile_imp (p := (· == '0')) (List.mem_reverse.mp hc))
  rw [DecimalStyle.trimZeros, ← hZeros, ← List.reverse_append, List.takeWhile_append_dropWhile,
    List.reverse_reverse]

theorem isDigits_trimZeros {cs : List Char} (h : IsDigits cs) :
    IsDigits (DecimalStyle.trimZeros cs) := by
  obtain ⟨k, hk⟩ := exists_zeros cs
  rw [hk] at h
  exact h.of_subset (List.subset_append_left _ _)

/-- A decimal in terms of the digits that are written: `0.d₁d₂… * 10 ^ x`. -/
theorem exists_written {d : Decimal} (h : 0 < d.digits) :
    IsDigits (DecimalStyle.trimZeros (Nat.toDigits 10 d.digits)) ∧
      DecimalStyle.trimZeros (Nat.toDigits 10 d.digits) ≠ [] ∧
      d.value = assemble [] (DecimalStyle.trimZeros (Nat.toDigits 10 d.digits))
        ((Nat.toDigits 10 d.digits).length + d.exponent) := by
  obtain ⟨k, hk⟩ := exists_zeros (Nat.toDigits 10 d.digits)
  have hDigits := isDigits_toDigits d.digits
  have hValue := ofDigits_toDigits d.digits
  generalize Nat.toDigits 10 d.digits = all at hk hDigits hValue ⊢
  generalize DecimalStyle.trimZeros all = cs at hk ⊢
  subst hk
  rw [ofDigits_append_zeros] at hValue
  refine ⟨hDigits.of_subset (List.subset_append_left _ _), ?_, ?_⟩
  · rintro rfl
    have : ofDigits [] = 0 := rfl
    rw [this, zero_mul] at hValue
    omega
  · rw [value, scale_ten, ← hValue, assemble, List.nil_append, List.length_append,
      List.length_replicate]
    push_cast
    rw [mul_assoc, ← zpow_natCast (10 : Rat) k, ← zpow_add₀ (by norm_num)]
    congr 2
    ring

/-- The digits may be parted anywhere if the exponent makes up for it. -/
theorem assemble_append (cs ds : List Char) (x : Int) :
    assemble cs ds x = assemble [] (cs ++ ds) (x + cs.length) := by
  rw [assemble, assemble, List.nil_append, List.length_append]
  push_cast
  congr 2
  ring

theorem assemble_zeros (cs : List Char) (n : Nat) (x : Int) :
    assemble [] (List.replicate n '0' ++ cs) x = assemble [] cs (x - n) := by
  rw [assemble, assemble, List.nil_append, List.nil_append, ofDigits_zeros_append,
    List.length_append, List.length_replicate]
  push_cast
  congr 2
  ring

theorem readExponent_sign (x : Int) :
    readExponent ((if 0 < x then '+' else '-') :: Nat.toDigits 10 (x - 1).natAbs) = x - 1 := by
  split
  · simp only [readExponent, ofDigits_toDigits]
    omega
  · simp only [readExponent, ofDigits_toDigits]
    omega

theorem read_scientific {cs : List Char} (h : IsDigits cs) (hNonempty : cs ≠ [])
    (exponent : List Char) :
    read (cs.take 1 ++ (if cs.length = 1 then [] else '.' :: cs.drop 1) ++ 'e' :: exponent) =
      assemble [] cs (readExponent exponent + 1) := by
  have hTake := h.of_subset (List.take_subset 1 cs)
  have hDrop := h.of_subset (List.drop_subset 1 cs)
  have hPoint := hTake.not_mem (c := '.') rfl
  have hLength : (cs.take 1).length = 1 := by
    have := List.length_pos_of_ne_nil hNonempty
    rw [List.length_take]
    omega
  split
  · rename_i hOne
    rw [List.append_nil, read_exponent (hTake.not_mem rfl), before_of_not_mem hPoint,
      after_of_not_mem hPoint, assemble_append, hLength, List.append_nil,
      List.take_of_length_le hOne.le]
    rfl
  · rw [read_exponent (not_mem_of_point hTake hDrop), before_append hPoint, after_append hPoint,
      assemble_append, hLength, List.take_append_drop]
    rfl

/-- What is written of a positive decimal stands for it. -/
theorem read_render (s : DecimalStyle) {d : Decimal} (h : 0 < d.digits) :
    read (s.render d).toList = d.value := by
  obtain ⟨hDigits, hNonempty, hValue⟩ := exists_written h
  rw [hValue, DecimalStyle.render, String.toList_ofList]
  simp only
  generalize DecimalStyle.trimZeros (Nat.toDigits 10 d.digits) = cs at hDigits hNonempty ⊢
  generalize ((Nat.toDigits 10 d.digits).length : Int) + d.exponent = x
  split
  · split
    · rename_i hWhole
      rw [read_whole (hDigits.append (isDigits_zeros _)), ofDigits_append_zeros, assemble,
        List.nil_append]
      obtain ⟨n, hn⟩ := Int.eq_ofNat_of_zero_le (sub_nonneg.mpr hWhole)
      rw [hn]
      push_cast
      simp
    · split
      · rename_i hWhole hPos
        rw [read_point (hDigits.of_subset (List.take_subset _ _))
          (hDigits.of_subset (List.drop_subset _ _)), assemble_append, List.take_append_drop,
          List.length_take]
        congr 1
        omega
      · rename_i hPos
        have hList : '0' :: '.' :: List.replicate (-x).toNat '0' ++ cs
            = List.replicate 1 '0' ++ '.' :: (List.replicate (-x).toNat '0' ++ cs) := rfl
        rw [hList, read_point (isDigits_zeros _) ((isDigits_zeros _).append hDigits),
          assemble_append, assemble_zeros, assemble_zeros]
        congr 1
        simp
        omega
  · rw [read_scientific hDigits hNonempty, readExponent_sign]
    congr 1
    ring

/-! ## The characters that are written -/

/-- The characters of a decimal text: digits, a point, and an exponent with a sign. -/
def IsDecimalChar (c : Char) : Prop := c.isDigit = true ∨ c ∈ ['.', 'e', '+', '-']

theorem render_eq_cons (s : DecimalStyle) {d : Decimal} (h : 0 < d.digits) :
    ∃ c cs, (s.render d).toList = c :: cs ∧ c.isDigit = true := by
  obtain ⟨hDigits, hNonempty, -⟩ := exists_written h
  rw [DecimalStyle.render, String.toList_ofList]
  simp only
  generalize DecimalStyle.trimZeros (Nat.toDigits 10 d.digits) = cs at hDigits hNonempty ⊢
  generalize ((Nat.toDigits 10 d.digits).length : Int) + d.exponent = x
  obtain ⟨c, cs, rfl⟩ := List.exists_cons_of_ne_nil hNonempty
  have hHead := hDigits c List.mem_cons_self
  split
  · split
    · exact ⟨c, _, rfl, hHead⟩
    · split
      · rename_i hPos
        obtain ⟨n, hn⟩ : ∃ n, x.toNat = n + 1 := ⟨x.toNat - 1, by omega⟩
        rw [hn]
        exact ⟨c, _, rfl, hHead⟩
      · exact ⟨'0', _, rfl, by decide⟩
  · exact ⟨c, _, rfl, hHead⟩

theorem isDecimalChar_of_mem_render (s : DecimalStyle) (d : Decimal) :
    ∀ c ∈ (s.render d).toList, IsDecimalChar c := by
  have hDigits := isDigits_trimZeros (isDigits_toDigits d.digits)
  rw [DecimalStyle.render, String.toList_ofList]
  simp only
  generalize DecimalStyle.trimZeros (Nat.toDigits 10 d.digits) = cs at hDigits ⊢
  generalize ((Nat.toDigits 10 d.digits).length : Int) + d.exponent = x
  intro c hc
  split at hc
  · split at hc
    · exact Or.inl ((hDigits.append (isDigits_zeros _)) c hc)
    · split at hc
      · simp only [List.mem_append, List.mem_cons] at hc
        rcases hc with hc | rfl | hc
        · exact Or.inl (hDigits c (List.mem_of_mem_take hc))
        · exact Or.inr (by decide)
        · exact Or.inl (hDigits c (List.mem_of_mem_drop hc))
      · simp only [List.cons_append, List.mem_cons] at hc
        rcases hc with rfl | rfl | hc
        · exact Or.inl (by decide)
        · exact Or.inr (by decide)
        · exact Or.inl (((isDigits_zeros _).append hDigits) c hc)
  · simp only [List.mem_append, List.mem_cons] at hc
    rcases hc with (hc | hc) | rfl | rfl | hc
    · exact Or.inl (hDigits c (List.mem_of_mem_take hc))
    · split at hc
      · cases hc
      · rcases List.mem_cons.mp hc with rfl | hc
        · exact Or.inr (by decide)
        · exact Or.inl (hDigits c (List.mem_of_mem_drop hc))
    · exact Or.inr (by decide)
    · exact Or.inr (by split <;> decide)
    · exact Or.inl (isDigits_toDigits _ c hc)

end SemanticCore.Decimal
