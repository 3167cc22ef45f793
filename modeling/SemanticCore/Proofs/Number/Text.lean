import SemanticCore.Proofs.Number.Reading

/-!
# Texts of numbers

The text of a double says which double it is: its digits are read as a rational that rounds to no
other (`Number.text_injective`). Apart from the two texts in words it has the characters of a
decimal only.
-/

namespace SemanticCore.Number

/-! ## Magnitudes -/

def unsignedText (q : Rat) : List Char :=
  if q = 0 then ['0']
  else (DecimalStyle.plain.render (Decimal.shortest .double q)).toList

theorem text_finite (q : Rat) :
    (finite q).text.toList = (if q < 0 then ['-'] else []) ++ unsignedText |q| := by
  simp only [text, unsignedText, abs_eq_zero, magnitude_eq_abs]
  by_cases hZero : q = 0
  · simp [hZero]
  · simp only [hZero, if_false]
    split <;> simp

theorem shortest_digits_pos {q : Rat} (h : (finite q).IsDouble) (hPos : 0 < q) :
    0 < (Decimal.shortest .double q).digits := by
  have hValue := Decimal.shortest_value_pos h hPos
  rw [Decimal.value] at hValue
  by_contra hZero
  rw [show (Decimal.shortest .double q).digits = 0 by omega] at hValue
  simp at hValue

theorem IsDouble.abs {q : Rat} (h : (finite q).IsDouble) : (finite |q|).IsDouble := by
  rcases abs_choice q with hq | hq
  · rwa [hq]
  · rw [hq]
    exact h.neg

theorem unsignedText_eq_cons {q : Rat} (h : (finite q).IsDouble) (hSign : 0 ≤ q) :
    ∃ c cs, unsignedText q = c :: cs ∧ c.isDigit = true := by
  unfold unsignedText
  split
  · exact ⟨'0', [], rfl, by decide⟩
  · rename_i hZero
    exact Decimal.render_eq_cons _ (shortest_digits_pos h (lt_of_le_of_ne hSign (Ne.symm hZero)))

/-- The text of zero is read as zero, any other as a rational that rounds to the double. -/
theorem read_unsignedText {q : Rat} (h : (finite q).IsDouble) (hPos : 0 < q) :
    0 < Decimal.read (unsignedText q) ∧
      (Decimal.neighbourhood .double q).contains (Decimal.read (unsignedText q)) = true := by
  rw [unsignedText, if_neg hPos.ne', Decimal.read_render _ (shortest_digits_pos h hPos)]
  exact ⟨Decimal.shortest_value_pos h hPos, Decimal.contains_shortest h hPos⟩

theorem read_unsignedText_zero : Decimal.read (unsignedText 0) = 0 := by
  have hZero : Decimal.IsDigits ['0'] := Decimal.isDigits_zeros 1
  rw [unsignedText, if_pos rfl, Decimal.read_whole hZero]
  rfl

theorem unsignedText_injective {p q : Rat} (hp : (finite p).IsDouble) (hq : (finite q).IsDouble)
    (hp₀ : 0 ≤ p) (hq₀ : 0 ≤ q) (h : unsignedText p = unsignedText q) : p = q := by
  have hZero := read_unsignedText_zero
  rcases hp₀.eq_or_lt with rfl | hPos <;> rcases hq₀.eq_or_lt with rfl | hPos'
  · rfl
  · have := (read_unsignedText hq hPos').1
    rw [← h, hZero] at this
    exact absurd this (lt_irrefl 0)
  · have := (read_unsignedText hp hPos).1
    rw [h, hZero] at this
    exact absurd this (lt_irrefl 0)
  · have hv := (read_unsignedText hp hPos).2
    rw [h] at hv
    exact Decimal.eq_of_contains hp hq hPos hPos' hv (read_unsignedText hq hPos').2

/-! ## Signs -/

def magnitudeText : Number → List Char
  | .nan => ['N', 'a', 'N']
  | .infinity _ => ['I', 'n', 'f', 'i', 'n', 'i', 't', 'y']
  | .finite q => unsignedText |q|

theorem text_eq (x : Number) :
    x.text.toList = (if x.isNegative then ['-'] else []) ++ x.magnitudeText := by
  cases x with
  | nan => decide
  | infinity negative => cases negative <;> decide
  | finite q =>
    rw [text_finite]
    simp [isNegative, magnitudeText]

theorem magnitudeText_eq_cons {x : Number} (h : x.IsDouble) :
    ∃ c cs, x.magnitudeText = c :: cs ∧ c ≠ '-' := by
  cases x with
  | nan => exact ⟨'N', _, rfl, by decide⟩
  | infinity negative => exact ⟨'I', _, rfl, by decide⟩
  | finite q =>
    obtain ⟨c, cs, hText, hDigit⟩ := unsignedText_eq_cons h.abs (abs_nonneg q)
    refine ⟨c, cs, hText, ?_⟩
    rintro rfl
    cases hDigit

theorem magnitudeText_injective {x y : Number} (hx : x.IsDouble) (hy : y.IsDouble)
    (hSign : x.isNegative = y.isNegative) (h : x.magnitudeText = y.magnitudeText) : x = y := by
  have hWord : ∀ {q : Rat} {c : Char} {cs : List Char}, (finite q).IsDouble →
      c.isDigit = false → unsignedText |q| ≠ c :: cs := by
    intro q c cs hq hc hText
    obtain ⟨d, ds, hText', hDigit⟩ := unsignedText_eq_cons hq.abs (abs_nonneg q)
    rw [hText'] at hText
    cases hText
    rw [hc] at hDigit
    cases hDigit
  cases x with
  | nan =>
    cases y with
    | nan => rfl
    | infinity negative => exact absurd h (by simp [magnitudeText])
    | finite q => exact absurd h.symm (hWord hy rfl)
  | infinity negative =>
    cases y with
    | nan => exact absurd h (by simp [magnitudeText])
    | infinity negative' => exact congrArg infinity hSign
    | finite q => exact absurd h.symm (hWord hy rfl)
  | finite p =>
    cases y with
    | nan => exact absurd h (hWord hx rfl)
    | infinity _ => exact absurd h (hWord hx rfl)
    | finite q =>
      have hAbs := unsignedText_injective hx.abs hy.abs (abs_nonneg p) (abs_nonneg q) h
      have hNegative : p < 0 ↔ q < 0 := by simpa [isNegative] using hSign
      rcases lt_or_ge p 0 with hp | hp
      · rw [abs_of_neg hp, abs_of_neg (hNegative.mp hp)] at hAbs
        rw [neg_injective hAbs]
      · have hq : 0 ≤ q := not_lt.mp fun hq => absurd (hNegative.mpr hq) (not_lt.mpr hp)
        rw [abs_of_nonneg hp, abs_of_nonneg hq] at hAbs
        rw [hAbs]

/-- Doubles with the same text are the same. -/
theorem text_injective {x y : Number} (hx : x.IsDouble) (hy : y.IsDouble)
    (h : x.text = y.text) : x = y := by
  obtain ⟨c, cs, hc, hDash⟩ := magnitudeText_eq_cons hx
  obtain ⟨d, ds, hd, hDash'⟩ := magnitudeText_eq_cons hy
  have hList := congrArg String.toList h
  rw [text_eq, text_eq] at hList
  by_cases hNegative : x.isNegative = true <;> by_cases hNegative' : y.isNegative = true
  · rw [if_pos hNegative, if_pos hNegative'] at hList
    exact magnitudeText_injective hx hy (hNegative.trans hNegative'.symm)
      (List.append_cancel_left hList)
  · rw [if_pos hNegative, if_neg hNegative', hd] at hList
    cases hList
    exact absurd rfl hDash'
  · rw [if_neg hNegative, if_pos hNegative', hc] at hList
    cases hList
    exact absurd rfl hDash
  · rw [if_neg hNegative, if_neg hNegative'] at hList
    refine magnitudeText_injective hx hy ?_ (List.append_cancel_left hList)
    rw [Bool.not_eq_true] at hNegative hNegative'
    rw [hNegative, hNegative']

/-- A number that is neither infinite nor undefined is written as a decimal. -/
theorem isDecimalChar_of_mem_text {q : Rat} {c : Char} (h : c ∈ (finite q).text.toList) :
    Decimal.IsDecimalChar c := by
  rw [text_finite, List.mem_append] at h
  rcases h with hSign | hMagnitude
  · split at hSign
    · rw [List.mem_singleton.mp hSign]
      exact Or.inr (by decide)
    · cases hSign
  · rw [unsignedText] at hMagnitude
    split at hMagnitude
    · rw [List.mem_singleton.mp hMagnitude]
      exact Or.inl (by decide)
    · exact Decimal.isDecimalChar_of_mem_render _ _ _ hMagnitude

/-- The bar, which parts numbers in keys, occurs in the text of no number. -/
theorem bar_not_mem_text (x : Number) : '|' ∉ x.text.toList := by
  cases x with
  | nan => decide
  | infinity negative => cases negative <;> decide
  | finite q =>
    intro hBar
    exact absurd (isDecimalChar_of_mem_text hBar) (by unfold Decimal.IsDecimalChar; decide)

end SemanticCore.Number
