import HeaderForge.Bytes
/-!
# Naming

How names of an API description become names of generated code and files.

1. `pascalCase` names classes and `snakeCase` names files and slots.
2. `sanitize` and `memberName` make identifiers of arbitrary text: keywords and leading digits are
   avoided.
3. `literalText` escapes text for a C++ string literal.
-/

namespace HeaderForge

namespace Naming

/-! ## Cases -/

/-- The words of a name put together, each starting with a capital. -/
def pascalWords : (wordStart : Bool) → Bytes → Bytes
  | _, [] => []
  | wordStart, b :: rest =>
    if Byte.isAlnum b then
      (if wordStart then Byte.toUpper b else b) :: pascalWords false rest
    else pascalWords true rest

/-- Whether a text starts with a digit. -/
def startsWithDigit (t : Bytes) : Bool := (t.head?.map Byte.isDigit).getD false

/-- `user_profile`, `user-profile` and `userProfile` become `UserProfile`. -/
def pascalCase (name : Bytes) : Bytes :=
  let words := pascalWords true name
  if words.isEmpty || startsWithDigit words then bytes "Model" ++ words else words

/-- Whether a capital after `previous` starts a word: after a small letter or a digit, or as the
last capital of a run. -/
def capitalStartsWord (previous : UInt8) (rest : Bytes) : Bool :=
  Byte.isLower previous || Byte.isDigit previous ||
    (Byte.isUpper previous && (rest.head?.map Byte.isLower).getD false)

/-- The words of a name in small letters, an underscore after each. `inWord` holds when the text
before ends in a letter or digit, which is then `previous`. -/
def snakeWords : (inWord : Bool) → (previous : UInt8) → Bytes → Bytes
  | _, _, [] => []
  | inWord, previous, b :: rest =>
    if Byte.isAlnum b then
      let word := Byte.toLower b :: snakeWords true b rest
      if inWord && Byte.isUpper b && capitalStartsWord previous rest then byte '_' :: word else word
    else if inWord then byte '_' :: snakeWords false b rest
    else snakeWords false b rest

/-- `UserProfile` becomes `user_profile`, and `HTTPServer` becomes `http_server`. -/
def snakeCase (name : Bytes) : Bytes :=
  dropEndWhile (· == byte '_') (snakeWords false 0 name)

/-! ## Identifiers -/

/-- The reserved words of C++, and the names that are special in places. -/
def keywords : List Bytes :=
  ["alignas", "alignof", "and", "and_eq", "asm", "auto", "bitand", "bitor", "bool", "break",
    "case", "catch", "char", "char8_t", "char16_t", "char32_t", "class", "compl", "concept",
    "const", "consteval", "constexpr", "constinit", "const_cast", "continue", "co_await",
    "co_return", "co_yield", "decltype", "default", "delete", "do", "double", "dynamic_cast",
    "else", "enum", "explicit", "export", "extern", "false", "float", "for", "friend", "goto",
    "if", "inline", "int", "long", "mutable", "namespace", "new", "noexcept", "not", "not_eq",
    "nullptr", "operator", "or", "or_eq", "private", "protected", "public", "register",
    "reinterpret_cast", "requires", "return", "short", "signed", "sizeof", "static",
    "static_assert", "static_cast", "struct", "switch", "template", "this", "thread_local",
    "throw", "true", "try", "typedef", "typeid", "typename", "union", "unsigned", "using",
    "virtual", "void", "volatile", "wchar_t", "while", "xor", "xor_eq", "final", "override",
    "import", "module"].map bytes

def isKeyword (word : Bytes) : Bool := keywords.contains word

/-- A word with an underscore after it if it is reserved. -/
def avoidKeyword (word : Bytes) : Bytes :=
  if isKeyword word then word ++ [byte '_'] else word

/-- An identifier for a text: what cannot stand in one becomes an underscore. -/
def sanitize (name : Bytes) : Bytes :=
  let word := name.map fun b => if Byte.isWord b then b else byte '_'
  if word.isEmpty then bytes "_"
  else avoidKeyword (if startsWithDigit word then byte '_' :: word else word)

/-- The runs of letters and digits, an underscore after each that something follows. -/
def memberWords : (inWord : Bool) → Bytes → Bytes
  | _, [] => []
  | inWord, b :: rest =>
    if Byte.isAlnum b then b :: memberWords true rest
    else if inWord then byte '_' :: memberWords false rest
    else memberWords false rest

/-- An identifier for an enumeration literal. -/
def memberName (literal : Bytes) : Bytes :=
  let word := dropEndWhile (· == byte '_') (memberWords false literal)
  if word.isEmpty then bytes "unknown"
  else avoidKeyword (if startsWithDigit word then bytes "value_" ++ word else word)

/-! ## Literals and files -/

def literalByte (b : UInt8) : Bytes :=
  if b == byte '"' then bytes "\\\""
  else if b == byte '\\' then bytes "\\\\"
  else if b == byte '\n' then bytes "\\n"
  else if b == byte '\r' then bytes "\\r"
  else if b == byte '\t' then bytes "\\t"
  else [b]

/-- What stands between the quotes of a C++ string literal for a text. -/
def literalText (t : Bytes) : Bytes := t.flatMap literalByte

/-- A C++ string literal for a text. -/
def literal (t : Bytes) : Bytes := byte '"' :: literalText t ++ [byte '"']

/-- The name of the header for a schema. -/
def headerFileName (schema : Bytes) : Bytes :=
  let stem := snakeCase schema
  (if stem.isEmpty then bytes "model" else stem) ++ bytes ".hpp"

end Naming

end HeaderForge
