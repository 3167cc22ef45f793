/-!
# Quoted text

A text in double quotes, on one line. A quote and a backslash are written after a backslash, the
control characters with a short escape by it (`shortEscape?`), the other control characters by
their code in four hexadecimal digits. All other characters stand for themselves.
-/

namespace SemanticCore.Text

/-- The letter after the backslash for the characters that have one. -/
def shortEscape? (c : Char) : Option Char :=
  match c with
  | '"' => some '"'
  | '\\' => some '\\'
  | '\x08' => some 'b'
  | '\x0c' => some 'f'
  | '\n' => some 'n'
  | '\r' => some 'r'
  | '\t' => some 't'
  | _ => none

/-- The digits of a number below `16 ^ 4` in four places. -/
def hexCode (n : Nat) : List Char :=
  let digits := Nat.toDigits 16 n
  List.replicate (4 - digits.length) '0' ++ digits

/-- How a character is written between quotes. -/
def escape (c : Char) : List Char :=
  match shortEscape? c with
  | some letter => ['\\', letter]
  | none => if c.toNat < 0x20 then '\\' :: 'u' :: hexCode c.toNat else [c]

/-- A text between quotes. -/
def quoted (s : String) : String := String.ofList ('"' :: s.toList.flatMap escape ++ ['"'])

end SemanticCore.Text
