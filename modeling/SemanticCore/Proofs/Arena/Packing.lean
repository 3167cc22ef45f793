import SemanticCore.Proofs.Arena.Handle
import SemanticCore.Proofs.Number.Counting

/-!
# Handles in double precision

A handle is one number for a generation and a place in it. It is put together by a product and a
sum, and it is taken apart by a quotient, the integer part of it, and a remainder. Below `2 ^ 53`
all of this is exact, and no number from there on is taken for one of a generation below `2 ^ 29`.

* `Handle.pack_ofNat`, `Handle.generation_ofNat`, `Handle.index_ofNat`: the computations.
* `Pool.get?_eq_resolve?`: a pool finds what taking a number apart finds, for every number.
-/

namespace SemanticCore

namespace Number

/-- What is no natural number is found by two tests. -/
theorem toNat?_eq_none_iff {x : Number} :
    x.toNat? = none ↔ (!x.isInteger || x.lt 0) = true := by
  cases hInt : x.toInt? with
  | none => simp [toNat?, isInteger, hInt]
  | some k =>
    obtain rfl := eq_ofInt_of_toInt? hInt
    have hSign : (ofInt k).lt 0 = decide (k < 0) := by
      show decide ((k : Rat) < ((0 : Nat) : Int)) = _
      exact decide_eq_decide.mpr (by exact_mod_cast Iff.rfl)
    rw [isInteger, toNat?, hInt, hSign]
    cases k <;> simp

end Number

namespace Handle

/-- The generation and the place of an object in one number. -/
def pack (generation index : Number) : Handle := generation * .ofNat span + index

/-- The entry that is meant by a number, which is taken apart for it. -/
def resolve? {α : Type} (generation : Number) (items : List α) (h : Handle) : Option α :=
  if !h.isInteger || h.lt 0 then none
  else if h.generation ≠ generation then none
  else Number.entry? items h.index

variable {n g i : Nat}

theorem floor_div_span (n : Nat) : ((n : Rat) / span).floor = ((n / span : Nat) : Int) :=
  Rat.floor_natCast_div_natCast n span

theorem ofNat_div_span (n : Nat) : Number.ofNat n / .ofNat span = .ofRat ((n : Rat) / span) := by
  show Number.div (.finite (n : Int)) (.finite (span : Int)) = _
  rw [Number.div, Int.cast_natCast, Int.cast_natCast, if_neg (by norm_num [span])]

/-- A number with up to 53 digits is divided exactly. -/
theorem generation_ofNat (hn : n < 2 ^ 53) : generation (.ofNat n) = .ofNat (n / span) := by
  have hExact := Number.isDouble_of_grid (e := -24) hn (by decide) (by decide)
  have hSpan : (n : Rat) * 2 ^ (-24 : Int) = n / span := by
    rw [zpow_neg, ← div_eq_mul_inv]
    norm_num [span]
  rw [hSpan] at hExact
  rw [generation, ofNat_div_span, hExact, Number.floor, floor_div_span]
  rfl

/-- A number with more digits is of no generation that a handle can have. -/
theorem generation_ne (hn : 2 ^ 53 ≤ n) (hg : g < 2 ^ 29) : generation (.ofNat n) ≠ .ofNat g := by
  have hQuot : (2 : Rat) ^ 29 ≤ n / span := by
    rw [le_div_iff₀ (by norm_num [span])]
    calc (2 : Rat) ^ 29 * span = 2 ^ 53 := by norm_num [span]
      _ ≤ (n : Rat) := by exact_mod_cast hn
  rw [generation, ofNat_div_span]
  rcases Number.le_cases (Number.two_pow_le_ofRat 29 hQuot) with hInf | ⟨r, hr, hLow⟩
  · rw [hInf]
    exact nofun
  · rw [hr]
    intro hEq
    have hFloor : r.floor = (g : Int) := by exact_mod_cast Number.finite.inj hEq
    have hLe : ((2 ^ 29 : Nat) : Int) ≤ r.floor := Rat.le_floor_iff.mpr (by exact_mod_cast hLow)
    omega

theorem index_ofNat (n : Nat) : index (.ofNat n) = .ofNat (n % span) := by
  have hSign : ¬ (n : Rat) / span < 0 := not_lt.mpr (by positivity)
  have hRest : (n : Rat) - span * (n / span : Nat) = (n % span : Nat) := by
    rw [sub_eq_iff_eq_add']
    exact_mod_cast (Nat.div_add_mod n span).symm
  show Number.rem (.finite (n : Int)) (.finite (span : Int)) = _
  rw [Number.rem, Int.cast_natCast, Int.cast_natCast, if_neg (by norm_num [span]), Number.truncate,
    if_neg hSign, floor_div_span, Int.cast_natCast, hRest]
  rfl

/-- The sum is exact up to the first handle behind the last generation. -/
theorem pack_ofNat (hg : g < 2 ^ 29) (hi : i ≤ span) :
    pack (.ofNat g) (.ofNat i) = .ofNat (g * span + i) := by
  have hTop : (g + 1) * span ≤ 2 ^ 29 * span := Nat.mul_le_mul_right span hg
  rw [Nat.add_mul, Nat.one_mul, show 2 ^ 29 * span = 2 ^ 53 from rfl] at hTop
  have hPos : 0 < span := Pool.span_pos
  have hMul : Number.ofNat g * .ofNat span = .ofNat (g * span) :=
    ((Number.Counts.ofNat g).mul_ofNat hPos).eq_ofNat (by omega)
  rw [pack, hMul, Number.ofNat_add (by omega)]

end Handle

namespace Pool

variable {α : Type} {p : Pool α}

/-- Taking a number apart in double precision finds the object that the number was given for. -/
theorem get?_eq_resolve? (hGeneration : p.generation < 2 ^ 29) (h : Handle) :
    p.get? h = Handle.resolve? (.ofNat p.generation) p.values h := by
  cases hNat : h.toNat? with
  | none =>
    rw [get?, index?, hNat, Handle.resolve?, if_pos (Number.toNat?_eq_none_iff.mp hNat)]
    rfl
  | some n =>
    have hTaken := mt Number.toNat?_eq_none_iff.mpr (hNat ▸ Option.some_ne_none n)
    obtain rfl := Number.eq_ofNat_of_toNat? hNat
    rw [get?, index?, hNat, Handle.resolve?, if_neg hTaken]
    rcases lt_or_ge n (2 ^ 53) with hn | hn
    · rw [Handle.generation_ofNat hn, Handle.index_ofNat, Number.entry?, Number.toNat?_ofNat]
      by_cases hSame : n / Handle.span = p.generation
      · simp [hSame, values]
      · simp [hSame, mt Number.ofNat_injective hSame]
    · have hOther : n / Handle.span ≠ p.generation := by
        have hLow := Nat.div_le_div_right (c := Handle.span) hn
        rw [show 2 ^ 53 / Handle.span = 2 ^ 29 from rfl] at hLow
        omega
      simp [hOther, Handle.generation_ne hn hGeneration]

end Pool

end SemanticCore
