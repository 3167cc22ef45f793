import SemanticCore.Number.Word

/-!
# Flags

Flags are the bits of a number. The named bits are listed in `Flags.named`; the text of a set of
flags names those that are set and gives the others in hexadecimal.
-/

namespace SemanticCore

/-- A set of flags, as the bits of a number. -/
abbrev Flags := Number

namespace Flags

/-- No flag. -/
def none : Flags := 0

/-- The names of the flags, in order of the bits. -/
def names : List String :=
  ["Const", "Public", "Extern", "Static", "Packed", "Virtual", "Abstract", "Override", "Variadic",
    "Async", "Inline", "Mutable", "Optional", "Builtin", "Generated", "Visited", "TypeChecked",
    "Used"]

/-- Each flag with its name, in order of the bits. -/
def named : List (String × Flags) := names.zipIdx.map fun (name, i) => (name, .ofNat (Nat.pow 2 i))

/-- Every name with what it stands for, the name of no flag included. -/
def all : List (String × Flags) := ("None", none) :: named

/-- The flag of records without gaps between their fields. -/
def packed : Flags := .ofNat 0x10

/-- The bits that have a name. -/
def known : Flags := .ofNat (Nat.pow 2 names.length - 1)

/-- Whether all bits of a flag are set. A flag without bits does not count as set. -/
def has (flags flag : Flags) : Bool := flag != 0 && flags.bitAnd flag == flag

/-- Whether one bit of a mask is set. -/
def hasAny (flags mask : Flags) : Bool := flags.bitAnd mask != 0

/-- Whether all bits of a mask are set. -/
def hasAll (flags mask : Flags) : Bool := flags.bitAnd mask == mask

/-- Whether the flag of packed records is set. -/
def isPacked (flags : Flags) : Bool := flags.hasAny packed

/-- The flags with a flag set. -/
def insert (flags flag : Flags) : Flags := flags.bitOr flag

/-- The flags with a flag not set. -/
def erase (flags flag : Flags) : Flags := flags.bitAnd flag.bitNot

/-- The flags with a flag set if it was not, and not set if it was. -/
def toggle (flags flag : Flags) : Flags := flags.bitXor flag

/-- The names of the flags that are set, in order, and the bits without a name in hexadecimal. -/
def parts (flags : Flags) : List String :=
  let set := (named.filter fun (_, bit) => flags.bitAnd bit == bit).map (·.1)
  let rest := flags.bitAnd known.bitNot
  if rest = 0 then set
  else set ++ [String.ofList ('0' :: 'x' :: Nat.toDigits 16 rest.toWord.toNat)]

/-- The names of the flags that are set, between bars. -/
def text (flags : Flags) : String := if flags = 0 then "None" else "|".intercalate flags.parts

/-- The flag of a name. -/
def ofName? (s : String) : Option Flags := (all.find? (·.1 == s)).map (·.2)

end Flags

end SemanticCore
