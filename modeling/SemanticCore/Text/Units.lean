/-!
# Text in 16-bit units and in bytes

Offsets and columns count 16-bit units, and texts are ordered by them: a character above `0xffff`
is two units, the first of which lies below `0xe000`, so this is not the order of the characters.
Stored text is a list of bytes.

* `Text.units`: the 16-bit units of a text.
* `Text.slice`: the characters between two offsets.
* `Text.order`: the order of two texts by their units.
* `Text.bytes`: the encoding in bytes.
-/

namespace SemanticCore.Text

/-- The 16-bit units of a character: one, or a leading and a trailing one. -/
def charUnits (c : Char) : List Nat :=
  let n := c.toNat
  if n < 0x10000 then [n]
  else [0xd800 + (n - 0x10000) / 0x400, 0xdc00 + (n - 0x10000) % 0x400]

/-- The 16-bit units of characters in order. -/
def unitsOf (cs : List Char) : List Nat := cs.flatMap charUnits

/-- The 16-bit units of a text. Units from `0xd800` to `0xdfff` come in pairs, a leading and a
trailing one; a text in which one of them stands alone is outside of the model. -/
def units (s : String) : List Nat := unitsOf s.toList

/-- How many 16-bit units a text has. -/
def unitLength (s : String) : Nat := (units s).length

/-- What is left of some characters without the first units. A character is taken out as a whole. -/
def dropUnits : Nat → List Char → List Char
  | 0, cs => cs
  | _ + 1, [] => []
  | n + 1, c :: cs => dropUnits (n + 1 - (charUnits c).length) cs

/-- The characters that the first units are of. -/
def takeUnits : Nat → List Char → List Char
  | 0, _ => []
  | _ + 1, [] => []
  | n + 1, c :: cs => c :: takeUnits (n + 1 - (charUnits c).length) cs

/-- The characters from one offset up to another. -/
def slice (start stop : Nat) (cs : List Char) : List Char :=
  takeUnits (stop - start) (dropUnits start cs)

/-- The first difference decides; a proper beginning comes first. -/
def orderUnits : List Nat → List Nat → Ordering
  | [], [] => .eq
  | [], _ :: _ => .lt
  | _ :: _, [] => .gt
  | x :: xs, y :: ys => if x < y then .lt else if y < x then .gt else orderUnits xs ys

/-- The order of two texts by their units. -/
def order (s t : String) : Ordering := orderUnits (units s) (units t)

/-- The bytes of a text in the variable-length encoding of one to four bytes a character. -/
def bytes (s : String) : List UInt8 := s.toList.flatMap String.utf8EncodeChar

end SemanticCore.Text
