import SemanticCore.Number.Basic

/-!
# The decimal text of a number

A number is written with the fewest decimal digits that read back as it, and of those with the
digits nearest to it (`Decimal.shortest`). Where the point goes is the choice of a `DecimalStyle`:
`DecimalStyle.plain` writes out magnitudes from `10 ^ -7` up to `10 ^ 21` and gives all others an
exponent.
-/

namespace SemanticCore

/-- The decimal `digits · 10 ^ exponent`. -/
structure Decimal where
  digits : Nat
  exponent : Int
  deriving DecidableEq, Repr, Inhabited

namespace Decimal

/-- The rational that a decimal stands for. -/
def value (d : Decimal) : Rat := (d.digits : Rat) * scale 10 d.exponent

/-- How many decimal digits a number has. -/
def width (n : Nat) : Nat := (Nat.toDigits 10 n).length

/-- The exponent `x` of a positive rational `q` with `10 ^ (x - 1) ≤ q < 10 ^ x`. -/
def leadingDigit (q : Rat) : Int :=
  if 1 ≤ q then (width q.floor.toNat : Int)
  else 1 - (width ((1 / q).ceil.toNat - 1) : Int)

/-- The rationals that round to one number of a format. -/
structure Neighbourhood where
  center : Rat
  lower : Rat
  upper : Rat
  closed : Bool

/-- The rationals that round to a positive number `q` of a format: half way to either neighbour,
the ends included exactly when the last digit of `q` is even. -/
def neighbourhood (f : BinaryFormat) (q : Rat) : Neighbourhood :=
  let e := f.spacing q
  let m := (q / scale 2 e).floor.toNat
  let half := scale 2 (e - 1)
  let below := if m = Nat.pow 2 (f.precision - 1) ∧ f.minExponent < e then half / 2 else half
  ⟨q, q - below, q + half, m % 2 == 0⟩

/-- Whether a rational is in a neighbourhood. -/
def Neighbourhood.contains (n : Neighbourhood) (q : Rat) : Bool :=
  if n.closed then decide (n.lower ≤ q) && decide (q ≤ n.upper)
  else decide (n.lower < q) && decide (q < n.upper)

/-- The decimal with `count` digits that lies in a neighbourhood nearest to its center, if any.
Only the two decimals on either side of the center can be that one; a tie goes to the even one. -/
def candidate? (n : Neighbourhood) (count : Nat) : Option Decimal :=
  let exponent := leadingDigit n.center - (count : Int)
  let digits := (n.center / scale 10 exponent).floor.toNat
  let low : Decimal := ⟨digits, exponent⟩
  let high : Decimal := ⟨digits + 1, exponent⟩
  let down := n.center - low.value
  let up := high.value - n.center
  match n.contains low.value, n.contains high.value with
  | true, true =>
    if down < up then some low else if up < down then some high
    else if digits % 2 = 0 then some low else some high
  | true, false => some low
  | false, true => some high
  | false, false => none

/-- The shortest decimal that rounds to a positive number `q` of a format. Seventeen digits are
enough for double precision. -/
def shortest (f : BinaryFormat) (q : Rat) : Decimal :=
  let n := neighbourhood f q
  ((List.range 17).findSome? fun k => candidate? n (k + 1)).getD ⟨0, 0⟩

end Decimal

/-- Which numbers are written without an exponent: those `0.d₁d₂… · 10 ^ x` with
`low < x ≤ high`. -/
structure DecimalStyle where
  low : Int
  high : Int

namespace DecimalStyle

/-- The style of numbers in texts: those with more than 21 digits before the point, and those below
a millionth, have an exponent. -/
def plain : DecimalStyle := ⟨-6, 21⟩

/-- Digits without the zeros at their end. -/
def trimZeros (cs : List Char) : List Char := (cs.reverse.dropWhile (· == '0')).reverse

/-- The text of a positive decimal. -/
def render (s : DecimalStyle) (d : Decimal) : String :=
  let all := Nat.toDigits 10 d.digits
  let x := (all.length : Int) + d.exponent
  let digits := trimZeros all
  let count := digits.length
  let zeros (n : Int) : List Char := List.replicate n.toNat '0'
  let chars :=
    if s.low < x ∧ x ≤ s.high then
      if (count : Int) ≤ x then digits ++ zeros (x - count)
      else if 0 < x then digits.take x.toNat ++ '.' :: digits.drop x.toNat
      else '0' :: '.' :: zeros (-x) ++ digits
    else
      let fraction := if count = 1 then [] else '.' :: digits.drop 1
      let sign := if 0 < x then '+' else '-'
      digits.take 1 ++ fraction ++ 'e' :: sign :: Nat.toDigits 10 (x - 1).natAbs
  String.ofList chars

end DecimalStyle

/-- The shortest decimal that rounds to a number, as text. -/
def Number.text : Number → String
  | .nan => "NaN"
  | .infinity negative => if negative then "-Infinity" else "Infinity"
  | .finite q =>
    if q = 0 then "0"
    else
      let body := DecimalStyle.plain.render (Decimal.shortest .double (magnitude q))
      if q < 0 then "-" ++ body else body

end SemanticCore
