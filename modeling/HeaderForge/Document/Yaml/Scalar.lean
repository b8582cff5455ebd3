import HeaderForge.Document.Node
import HeaderForge.Document.Number
import HeaderForge.Document.Quoted
/-!
# YAML scalars

Plain scalars spell null, truth values and numbers; what spells none of them is a string. Quotes of
either kind make a string of anything.
-/

namespace HeaderForge

namespace Yaml

/-- The byte that a letter after a backslash stands for in double quotes. -/
def unescaped (letter : UInt8) : UInt8 :=
  if letter == byte 'n' then 0x0A
  else if letter == byte 't' then 0x09
  else if letter == byte 'r' then 0x0D
  else letter

/-- The text inside double quotes. Each code unit is encoded alone, and a backslash before anything
else stands for what follows it. -/
def unquoteDouble : Bytes → Bytes
  | [] => []
  | [b] => [b]
  | b :: letter :: rest =>
    if b == byte '\\' then
      if letter == byte 'u' then
        match rest with
        | d₃ :: d₂ :: d₁ :: d₀ :: after =>
          match Quoted.hex4? d₃ d₂ d₁ d₀ with
          | some code => Quoted.utf8 code ++ unquoteDouble after
          | none => letter :: unquoteDouble (d₃ :: d₂ :: d₁ :: d₀ :: after)
        | short => letter :: unquoteDouble short
      else unescaped letter :: unquoteDouble rest
    else b :: unquoteDouble (letter :: rest)

/-- The text inside single quotes, where a quote is written twice. -/
def unquoteSingle : Bytes → Bytes
  | [] => []
  | [b] => [b]
  | b :: next :: rest =>
    if b == byte '\'' && next == byte '\'' then b :: unquoteSingle rest
    else b :: unquoteSingle (next :: rest)

/-- What stands between two quotes that enclose a text. -/
def between? (quote : UInt8) (t : Bytes) : Option Bytes :=
  match t with
  | first :: rest =>
    if first == quote && rest.getLast? = some quote then some rest.dropLast else none
  | [] => none

/-- The string that a quoted text spells. -/
def unquote? (t : Bytes) : Option Bytes :=
  match between? (byte '"') t with
  | some inner => some (unquoteDouble inner)
  | none => (between? (byte '\'') t).map unquoteSingle

/-- A key, whose quotes may be left out. -/
def keyText (t : Bytes) : Bytes :=
  let t := Bytes.trim t
  (unquote? t).getD t

/-- The value that a trimmed scalar spells. -/
def scalar (t : Bytes) : Node :=
  let t := Bytes.trim t
  if t.isEmpty || t = bytes "~" || t = bytes "null" || t = bytes "Null" || t = bytes "NULL" then
    .null
  else
    match unquote? t with
    | some value => .str value
    | none =>
      if t = bytes "true" || t = bytes "True" || t = bytes "TRUE" then .bool true
      else if t = bytes "false" || t = bytes "False" || t = bytes "FALSE" then .bool false
      else if Number.isLexeme t then .num t
      else .str t

end Yaml

end HeaderForge
