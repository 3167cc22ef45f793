import SemanticCore.Number.Decimal
import SemanticCore.Types.Basic

/-!
# The spelling of types

A type is spelled as in source text. A record is spelled out with its fields; inside another record,
as a field or a base class, it goes by its name if it has one.
-/

namespace SemanticCore.Ty

/-- The name of a record that has one. -/
def recordName? : Ty → Option String
  | .structType _ h _ | .classType _ h _ _ => if h.name.isEmpty then none else some h.name.text
  | _ => none

/-- Whether a type is one of functions. -/
def isFunction : Ty → Bool
  | .function .. => true
  | _ => false

/-- Spelled fields in braces. -/
def braced (fields : List String) : String :=
  if fields.isEmpty then "\x7b\x7d" else "\x7b " ++ ", ".intercalate fields ++ " \x7d"

mutual

/-- The spelling of a type. -/
def spell : Ty → String
  | .primitive p => p.name
  | .array _ e n => "[" ++ (if n = 0 then "" else (Number.ofNat n).text) ++ "]" ++ spell e
  | .tuple _ es => "(" ++ ", ".intercalate (spellAll es) ++ ")"
  | .union _ vs => " | ".intercalate (spellAll vs)
  | .function _ ps r _ =>
    let result := if r.isFunction then "(" ++ spell r ++ ")" else spell r
    "(" ++ ", ".intercalate (spellAll ps) ++ ") -> " ++ result
  | .pointer _ t => "*" ++ spell t
  | .reference _ t => "&" ++ spell t
  | .structType _ h fs =>
    (if h.flags.isPacked then "packed " else "") ++
      (if h.name.isEmpty then "struct" else h.name.text) ++ " " ++ braced (spellFields fs)
  | .classType _ h fs b =>
    (if h.name.isEmpty then "class" else "class " ++ h.name.text) ++ spellBase b ++ " " ++
      braced (spellFields fs)
termination_by structural t => t

/-- The spellings of types in order. -/
def spellAll : List Ty → List String
  | [] => []
  | t :: ts => spell t :: spellAll ts
termination_by structural ts => ts

/-- The spellings of fields in order. -/
def spellFields : List (Name × Ty) → List String
  | [] => []
  | ⟨n, t⟩ :: fs => (n.text ++ ": " ++ (t.recordName?.getD (spell t))) :: spellFields fs
termination_by structural fs => fs

/-- What stands for a base class after the name of a class. -/
def spellBase : Option Ty → String
  | none => ""
  | some t => " : " ++ t.recordName?.getD (spell t)
termination_by structural b => b

end

theorem spellAll_eq_map (ts : List Ty) : spellAll ts = ts.map spell := by
  induction ts with
  | nil => rfl
  | cons t ts ih => rw [spellAll, ih, List.map_cons]

end SemanticCore.Ty
