import SemanticCore.Number.Bits
import SemanticCore.Types.Basic

/-!
# Types of literals

An integer literal gets the narrowest type of its sign that holds it, a float literal the narrower
type if it keeps its value there. `Ty.promote?` gives the common type of two numeric operands.
-/

namespace SemanticCore

namespace IntegerKind

/-- The least integer of a kind. -/
def minValue (k : IntegerKind) : Int := if k.signed then -(Nat.pow 2 (k.bits - 1) : Nat) else 0

/-- The greatest integer of a kind. -/
def maxValue (k : IntegerKind) : Int :=
  (Nat.pow 2 (if k.signed then k.bits - 1 else k.bits) : Nat) - 1

/-- Whether an integer is one of a kind. -/
def holds (k : IntegerKind) (value : Int) : Bool :=
  decide (k.minValue ≤ value) && decide (value ≤ k.maxValue)

/-- The narrowest type of a sign that holds a value; the widest if none does. -/
def best (value : Int) (signed : Bool) : IntegerKind :=
  ((ladder signed).find? (·.holds value)).getD ⟨signed, .w128⟩

end IntegerKind

namespace FloatKind

/-- Whether the value of some bits is one of single precision. A NaN is not. -/
def holdsSingle (bits : UInt64) : Bool :=
  match Number.ofBits bits with
  | .nan => false
  | .infinity _ => true
  | .finite q => BinaryFormat.single.round q == .finite q

/-- The narrower type if it holds the value, else the wider one. -/
def best (bits : UInt64) : FloatKind := if holdsSingle bits then .f32 else .f64

end FloatKind

/-- The common type of two numeric operands: the wider one, at equal widths the signed one; an
integer becomes the float that it meets. -/
def Ty.promote? : Ty → Ty → Option Ty
  | .primitive (.integer k), .primitive (.integer k') =>
    let first :=
      if k.bits = k'.bits then k.signed || !k'.signed else decide (k'.bits < k.bits)
    some (.primitive (.integer (if first then k else k')))
  | .primitive (.float k), .primitive (.float k') =>
    some (.primitive (.float (if k'.bits < k.bits then k else k')))
  | .primitive (.integer _), .primitive (.float k) => some (.primitive (.float k))
  | .primitive (.float k), .primitive (.integer _) => some (.primitive (.float k))
  | _, _ => none

end SemanticCore
