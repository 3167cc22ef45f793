/-!
# Names known to every interner

The keywords and the built-in identifiers of the language, in a fixed order: the keywords first.
-/

namespace SemanticCore.Builtin

/-- The words that the language keeps to itself. -/
def keywords : List String :=
  ["func", "var", "const", "type", "struct", "class", "enum", "union", "if", "else", "for", "in",
    "while", "return", "break", "continue", "defer", "yield", "match", "switch", "case",
    "default", "true", "false", "null", "this", "super", "pub", "extern", "import", "module",
    "as", "macro", "test", "async", "await"]

/-- The names that are bound in every unit. -/
def identifiers : List String :=
  ["main", "sizeof", "alignof", "typeof", "len", "assert", "panic", "print", "i8", "i16", "i32",
    "i64", "i128", "u8", "u16", "u32", "u64", "u128", "f32", "f64", "bool", "char", "void",
    "auto", "string", "Self", "__init", "__deinit", "__copy", "__name", "__file", "__line"]

/-- All of these names. -/
def names : List String := keywords ++ identifiers

/-- Whether a text is one of these names. -/
def isName (s : String) : Bool := names.contains s

end SemanticCore.Builtin
