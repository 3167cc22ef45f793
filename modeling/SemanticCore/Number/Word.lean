import SemanticCore.Number.Basic

/-!
# Bit operations on numbers

A bit operation takes the lowest 32 bits of the integer part of its operands (`Number.toWord`) and
answers with a word read as a signed integer (`Number.ofWord`). What is not finite counts as zero.
-/

namespace SemanticCore.Number

/-- The lowest 32 bits of the integer part, negative numbers in two's complement. -/
def toWord : Number → UInt32
  | .finite q => UInt32.ofNat (truncate q % 0x100000000).toNat
  | _ => 0

/-- The signed integer that 32 bits stand for. -/
def ofWord (w : UInt32) : Number :=
  .ofInt (if w.toNat < 0x80000000 then (w.toNat : Int) else (w.toNat : Int) - 0x100000000)

/-- The natural number that 32 bits stand for. -/
def ofUnsigned (w : UInt32) : Number := .ofNat w.toNat

/-- The bits that both operands have. -/
def bitAnd (x y : Number) : Number := ofWord (x.toWord &&& y.toWord)

/-- The bits that either operand has. -/
def bitOr (x y : Number) : Number := ofWord (x.toWord ||| y.toWord)

/-- The bits that just one operand has. -/
def bitXor (x y : Number) : Number := ofWord (x.toWord ^^^ y.toWord)

/-- The bits that a number lacks. -/
def bitNot (x : Number) : Number := ofWord (~~~ x.toWord)

end SemanticCore.Number
