/-!
# Double-precision numbers

Sizes, offsets, flags and node handles are double-precision numbers. A finite number is kept as
the rational it stands for, so arithmetic is exact arithmetic followed by one rounding
(`BinaryFormat.round`, to the nearest representable number, a tie going to the even one). The two
zeros are one value.

* `roundEven`: the nearest integer, a half going to the even neighbour.
* `BinaryFormat.round`: the nearest number of a binary format.
* `Number.add`, `Number.mul`, `Number.div`: the exact result, rounded to double precision.
* `Number.toNat?`: the natural number that a number stands for, if any.
-/

namespace SemanticCore

/-- A double-precision number, with one zero and one value that is not a number. -/
inductive Number where
  | nan
  | infinity (negative : Bool)
  | finite (value : Rat)
  deriving DecidableEq, Repr, Inhabited

/-! ## Rounding -/

/-- The power `base ^ exponent` for an exponent of either sign. -/
def scale (base : Nat) (exponent : Int) : Rat :=
  if 0 ≤ exponent then (Nat.pow base exponent.toNat : Rat)
  else mkRat 1 (Nat.pow base (-exponent).toNat)

/-- The nearest integer; a half goes to the even neighbour. -/
def roundEven (q : Rat) : Int :=
  let k := q.floor
  let rest := q - k
  if rest < 1 / 2 then k else if 1 / 2 < rest then k + 1 else k + k % 2

/-- The absolute value. -/
def magnitude (q : Rat) : Rat := if q < 0 then -q else q

/-- The exponent of the leading binary digit of a nonzero rational: `2 ^ e ≤ |q| < 2 ^ (e + 1)`. -/
def leadingBit (q : Rat) : Int :=
  let guess : Int := (q.num.natAbs.log2 : Int) - (q.den.log2 : Int)
  if scale 2 guess ≤ magnitude q then guess else guess - 1

/-- A binary floating-point format: `precision` significant bits, no spacing below
`2 ^ minExponent`, and every magnitude below `2 ^ overflow`. -/
structure BinaryFormat where
  precision : Nat
  minExponent : Int
  overflow : Nat

namespace BinaryFormat

/-- Double precision. -/
def double : BinaryFormat := ⟨53, -1074, 1024⟩

/-- Single precision. -/
def single : BinaryFormat := ⟨24, -149, 128⟩

/-- The exponent of the distance between neighbours of the format at `q`. -/
def spacing (f : BinaryFormat) (q : Rat) : Int :=
  max (leadingBit q - ((f.precision : Int) - 1)) f.minExponent

/-- Every integer up to `2 ^ precision` belongs to the format. -/
def isSmallInteger (f : BinaryFormat) (q : Rat) : Bool :=
  q.den == 1 && q.num.natAbs ≤ Nat.pow 2 f.precision

/-- The number of the format nearest to `q`; of two, the one with an even last digit. A magnitude
that reaches `2 ^ overflow` becomes infinite. -/
def round (f : BinaryFormat) (q : Rat) : Number :=
  if f.isSmallInteger q then .finite q
  else
    let step := scale 2 (f.spacing q)
    let r := (roundEven (q / step) : Rat) * step
    if scale 2 f.overflow ≤ magnitude r then .infinity (decide (q < 0)) else .finite r

end BinaryFormat

namespace Number

/-! ## Integers as numbers -/

/-- An integer as a number, without rounding. -/
def ofInt (i : Int) : Number := .finite i

/-- A natural number as a number, without rounding. -/
def ofNat (n : Nat) : Number := .ofInt n

instance (n : Nat) : OfNat Number n := ⟨ofNat n⟩

/-- The integer that a number is, if it is one. -/
def toInt? : Number → Option Int
  | .finite q => if q.den = 1 then some q.num else none
  | _ => none

/-- The natural number that a number is, if it is one. -/
def toNat? (x : Number) : Option Nat :=
  match x.toInt? with
  | some (.ofNat n) => some n
  | _ => none

/-- Whether a number is an integer. -/
def isInteger (x : Number) : Bool := x.toInt?.isSome

/-! ## Arithmetic -/

/-- The nearest double. -/
def ofRat (q : Rat) : Number := BinaryFormat.double.round q

/-- Whether a number is below zero. -/
def isNegative : Number → Bool
  | .finite q => decide (q < 0)
  | .infinity negative => negative
  | .nan => false

/-- The number with the other sign. -/
def neg : Number → Number
  | .finite q => .finite (-q)
  | .infinity negative => .infinity (!negative)
  | .nan => .nan

/-- The rounded sum; opposite infinities have none. -/
def add : Number → Number → Number
  | .finite p, .finite q => ofRat (p + q)
  | .infinity s, .finite _ => .infinity s
  | .finite _, .infinity s => .infinity s
  | .infinity s, .infinity t => if s = t then .infinity s else .nan
  | _, _ => .nan

/-- The rounded difference. -/
def sub (x y : Number) : Number := x.add y.neg

/-- The rounded product; zero times an infinity is none. -/
def mul : Number → Number → Number
  | .finite p, .finite q => ofRat (p * q)
  | .nan, _ => .nan
  | _, .nan => .nan
  | x, y => if x = .finite 0 ∨ y = .finite 0 then .nan else .infinity (x.isNegative != y.isNegative)

/-- The rounded quotient. What is divided by zero becomes infinite, zero itself none. -/
def div : Number → Number → Number
  | .finite p, .finite q =>
    if q = 0 then (if p = 0 then .nan else .infinity (decide (p < 0))) else ofRat (p / q)
  | .infinity s, .finite q => .infinity (s != decide (q < 0))
  | .finite _, .infinity _ => .finite 0
  | _, _ => .nan

instance : Add Number := ⟨add⟩
instance : Sub Number := ⟨sub⟩
instance : Mul Number := ⟨mul⟩
instance : Div Number := ⟨div⟩

/-- The least integer that is not below a number. -/
def ceil : Number → Number
  | .finite q => .ofInt q.ceil
  | x => x

/-- The greatest integer that is not above a number. -/
def floor : Number → Number
  | .finite q => .ofInt q.floor
  | x => x

/-- The integer part: what is left of a rational without its fraction. -/
def truncate (q : Rat) : Int := if q < 0 then q.ceil else q.floor

/-- The remainder of the division toward zero; it has the sign of the dividend. -/
def rem : Number → Number → Number
  | .finite p, .finite q => if q = 0 then .nan else .finite (p - q * truncate (p / q))
  | .finite p, .infinity _ => .finite p
  | _, _ => .nan

/-! ## Order -/

/-- Whether one number is below another; nothing compares with what is not a number. -/
def lt : Number → Number → Bool
  | .finite p, .finite q => decide (p < q)
  | .infinity s, .infinity t => s && !t
  | .infinity s, .finite _ => s
  | .finite _, .infinity t => !t
  | _, _ => false

/-- Whether one number is not above another; nothing compares with what is not a number. -/
def le (x y : Number) : Bool := x.lt y || (x == y && x != .nan)

/-- The greater of two numbers; not a number if either is none. -/
def max (x y : Number) : Number :=
  if x = .nan ∨ y = .nan then .nan else if x.lt y then y else x

/-! ## Positions in a list -/

/-- The place at which something goes into a list of `length` entries: the integer part of a
position, moved into the range from `0` to `length`. -/
def clampTo (length : Nat) : Number → Nat
  | .finite q => min (truncate q).toNat length
  | .infinity negative => if negative then 0 else length
  | .nan => 0

/-- The entry of a list at a numeric position; there is one only at an integer in range. -/
def entry? {α : Type} (xs : List α) (index : Number) : Option α :=
  match index.toNat? with
  | some i => xs[i]?
  | none => none

end Number

end SemanticCore
