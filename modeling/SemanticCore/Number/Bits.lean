import SemanticCore.Number.Basic

/-!
# The 64 bits of a number

A literal keeps the bits of its value, so that the sign of a zero survives. `ofBits` reads the sign,
the 11 bits of exponent and the 52 bits of fraction; `toBits` writes them, every NaN in one way.
-/

namespace SemanticCore.Number

/-- The value of the bit that holds the sign. -/
def signBit : Nat := 0x8000000000000000

/-- The value of the leading bit of a significand, the one that is not written. -/
def hiddenBit : Nat := 0x10000000000000

/-- The number that 64 bits stand for. -/
def ofBits (bits : UInt64) : Number :=
  let n := bits.toNat
  let negative := decide (signBit ≤ n)
  let exponent : Nat := n / hiddenBit % 2048
  let fraction : Nat := n % hiddenBit
  let signed (q : Rat) : Rat := if negative then -q else q
  if exponent = 2047 then (if fraction = 0 then .infinity negative else .nan)
  else if exponent = 0 then .finite (signed ((fraction : Rat) * scale 2 (-1074)))
  else .finite (signed (((hiddenBit + fraction : Nat) : Rat) * scale 2 ((exponent : Int) - 1075)))

/-- The bits of every value that is not a number. -/
def nanBits : UInt64 := 0x7ff8000000000000

/-- The bits of a number; zero is positive. -/
def toBits : Number → UInt64
  | .nan => nanBits
  | .infinity negative => if negative then 0xfff0000000000000 else 0x7ff0000000000000
  | .finite q =>
    if q = 0 then 0
    else
      let e := BinaryFormat.double.spacing q
      let m := (magnitude q / scale 2 e).floor.toNat
      let sign := if q < 0 then signBit else 0
      let body := if m < hiddenBit then m else (e + 1075).toNat * hiddenBit + (m - hiddenBit)
      UInt64.ofNat (sign + body)

/-- Bits in which every NaN is the same. -/
def canonicalBits (bits : UInt64) : UInt64 := if ofBits bits = .nan then nanBits else bits

end SemanticCore.Number
