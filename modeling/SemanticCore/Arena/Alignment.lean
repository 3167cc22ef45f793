import SemanticCore.Number.Word

/-!
# Alignment of numbers

`alignUp` moves a number up to a multiple of an alignment in double-precision arithmetic;
`isPowerOfTwo` is the test that an alignment has to pass.
-/

namespace SemanticCore.Number

/-- A number moved up to a multiple of `alignment`: the quotient is rounded up to an integer and
multiplied back. -/
def alignUp (x alignment : Number) : Number := (x / alignment).ceil * alignment

/-- Whether a number is a positive integer without a bit in common with its predecessor. Only the
lowest 32 bits are compared. -/
def isPowerOfTwo (x : Number) : Bool :=
  x.isInteger && (0 : Number).lt x && x.bitAnd (x - 1) == 0

end SemanticCore.Number
