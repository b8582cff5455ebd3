import HeaderForge.Bytes.KeySet
import HeaderForge.Document.Node
import HeaderForge.Document.Number
import HeaderForge.Document.Quoted
/-!
# Reading JSON

A reader by recursive descent. Every step takes the text that is left and returns what it read and
the text that is left after it; a refusal says where it stopped by the text that was left there.

1. Strings are first cut into `Piece`s and then assembled, so that a high surrogate followed by a
   low one becomes one code point.
2. `value` recurses on the levels of nesting that are left; the loops over entries and items take
   the value reader as an argument and are bounded by the length of the text.
3. `Json.read` reads a whole document and turns the place of a refusal into an offset.
-/

namespace HeaderForge

namespace Json

/-- Values may lie this many levels below the root. -/
def maxDepth : Nat := 256

/-- Why reading stopped. -/
inductive Cause where
  | tooDeep
  | unexpectedEnd
  | expectedString
  | unterminatedString
  | invalidUnicode
  | invalidEscape
  | expectedColon
  | duplicateKey (key : Bytes)
  | expectedBrace
  | expectedBracket
  | unexpectedToken
  | trailing
deriving DecidableEq, Repr

def Cause.message : Cause → Bytes
  | tooDeep => bytes "nesting too deep"
  | unexpectedEnd => bytes "unexpected end of input"
  | expectedString => bytes "expected string"
  | unterminatedString => bytes "unterminated string"
  | invalidUnicode => bytes "invalid unicode escape"
  | invalidEscape => bytes "invalid escape sequence"
  | expectedColon => bytes "expected ':'"
  | duplicateKey key => bytes "duplicate key '" ++ key ++ bytes "'"
  | expectedBrace => bytes "expected '\x7d'"
  | expectedBracket => bytes "expected ']'"
  | unexpectedToken => bytes "unexpected token"
  | trailing => bytes "trailing characters after document"

/-- A refusal: the text that was left, and why it cannot be read on. -/
structure Stop where
  rest : Bytes
  cause : Cause
deriving DecidableEq, Repr

/-- A step returns what it read and the text after it. -/
abbrev Step := Except Stop

def skipBlanks (t : Bytes) : Bytes := t.dropWhile Byte.isBlank

/-- The text after the next byte that is not blank, if that byte is the given one. -/
def next? (b : UInt8) (t : Bytes) : Option Bytes :=
  match skipBlanks t with
  | [] => none
  | c :: rest => if c == b then some rest else none

/-! ## Strings -/

/-- What a string is made of: bytes, and code units named by `\u` escapes. -/
inductive Piece where
  | byte (b : UInt8)
  | unit (code : Nat)
deriving DecidableEq, Repr

/-- The bytes of a string. Two units that form a surrogate pair are one code point, and every other
unit is encoded alone. -/
def assemble : List Piece → Bytes
  | [] => []
  | .byte b :: rest => b :: assemble rest
  | .unit high :: .unit low :: rest =>
    if Quoted.isHighSurrogate high && Quoted.isLowSurrogate low then
      Quoted.utf8 (Quoted.pairCode high low) ++ assemble rest
    else Quoted.utf8 high ++ assemble (.unit low :: rest)
  | .unit code :: rest => Quoted.utf8 code ++ assemble rest

/-- The byte that a letter after a backslash stands for. -/
def escaped? (letter : UInt8) : Option UInt8 :=
  if letter == byte '"' || letter == byte '\\' || letter == byte '/' then some letter
  else if letter == byte 'b' then some 0x08
  else if letter == byte 'f' then some 0x0C
  else if letter == byte 'n' then some 0x0A
  else if letter == byte 'r' then some 0x0D
  else if letter == byte 't' then some 0x09
  else none

/-- Adds a piece in front of what a step reads. -/
def Piece.before (p : Piece) (more : Step (List Piece × Bytes)) : Step (List Piece × Bytes) :=
  more.map fun (pieces, rest) => (p :: pieces, rest)

/-- The pieces up to the closing quote. -/
def pieces : Bytes → Step (List Piece × Bytes)
  | [] => .error ⟨[], .unterminatedString⟩
  | b :: rest =>
    if b == byte '"' then .ok ([], rest)
    else if b == byte '\\' then
      match rest with
      | [] => .error ⟨[], .unterminatedString⟩
      | letter :: rest =>
        if letter == byte 'u' then
          match rest with
          | d₃ :: d₂ :: d₁ :: d₀ :: after =>
            match Quoted.hex4? d₃ d₂ d₁ d₀ with
            | some code => Piece.before (.unit code) (pieces after)
            | none => .error ⟨rest, .invalidUnicode⟩
          | short => .error ⟨short, .invalidUnicode⟩
        else
          match escaped? letter with
          | some c => Piece.before (.byte c) (pieces rest)
          | none => .error ⟨rest, .invalidEscape⟩
    else Piece.before (.byte b) (pieces rest)

def string (t : Bytes) : Step (Bytes × Bytes) :=
  match next? (byte '"') t with
  | some rest => (pieces rest).map fun (found, rest) => (assemble found, rest)
  | none => .error ⟨skipBlanks t, .expectedString⟩

/-! ## Values -/

def endsToken (b : UInt8) : Bool :=
  b == byte ',' || b == byte '\x7d' || b == byte ']' || Byte.isBlank b

/-- The value that a bare word spells. -/
def token? (word : Bytes) : Option Node :=
  if word = bytes "true" then some (.bool true)
  else if word = bytes "false" then some (.bool false)
  else if word = bytes "null" then some .null
  else if Number.isLexeme word then some (.num word)
  else none

/-- The items of an array after its opening bracket, the first one being there. -/
def items (value : Bytes → Step (Node × Bytes)) : (bound : Nat) → Bytes → Step (List Node × Bytes)
  | 0, t => .error ⟨t, .unexpectedEnd⟩
  | bound + 1, t => do
    let (item, t) ← value t
    match next? (byte ',') t with
    | some t =>
      let (more, t) ← items value bound t
      return (item :: more, t)
    | none =>
      match next? (byte ']') t with
      | some t => return ([item], t)
      | none => throw ⟨skipBlanks t, .expectedBracket⟩

/-- The entries of an object after its opening brace, the first one being there. The keys that came
before may not come again. -/
def entries (value : Bytes → Step (Node × Bytes)) :
    (bound : Nat) → (earlier : KeySet) → Bytes → Step (List (Bytes × Node) × Bytes)
  | 0, _, t => .error ⟨t, .unexpectedEnd⟩
  | bound + 1, earlier, t => do
    let (key, t) ← string t
    match next? (byte ':') t with
    | none => throw ⟨skipBlanks t, .expectedColon⟩
    | some t =>
      let (item, t) ← value t
      if earlier.contains key then throw ⟨t, .duplicateKey key⟩
      else
        match next? (byte ',') t with
        | some t =>
          let (more, t) ← entries value bound (earlier.insert key) t
          return ((key, item) :: more, t)
        | none =>
          match next? (byte '\x7d') t with
          | some t => return ([(key, item)], t)
          | none => throw ⟨skipBlanks t, .expectedBrace⟩

/-- A value with at most the given number of levels, its own included. -/
def value : (levels : Nat) → Bytes → Step (Node × Bytes)
  | 0, t => .error ⟨t, .tooDeep⟩
  | levels + 1, t =>
    match skipBlanks t with
    | [] => .error ⟨[], .unexpectedEnd⟩
    | b :: rest =>
      if b == byte '\x7b' then
        match next? (byte '\x7d') rest with
        | some after => .ok (.obj [], after)
        | none =>
          (entries (value levels) (rest.length + 1) .empty rest).map fun (found, after) =>
            (.obj found, after)
      else if b == byte '[' then
        match next? (byte ']') rest with
        | some after => .ok (.arr [], after)
        | none =>
          (items (value levels) (rest.length + 1) (skipBlanks rest)).map fun (found, after) =>
            (.arr found, after)
      else if b == byte '"' then
        (pieces rest).map fun (found, after) => (.str (assemble found), after)
      else
        match token? ((b :: rest).takeWhile fun c => !endsToken c) with
        | some n => .ok (n, (b :: rest).dropWhile fun c => !endsToken c)
        | none => .error ⟨b :: rest, .unexpectedToken⟩

/-- A value and nothing after it but blanks. -/
def document (t : Bytes) : Step Node := do
  let (n, rest) ← value (maxDepth + 1) t
  match skipBlanks rest with
  | [] => return n
  | left => throw ⟨left, .trailing⟩

/-- Where and why a text is refused. -/
def Stop.describe (stop : Stop) (t : Bytes) : Bytes :=
  bytes "offset " ++ natText (t.length - stop.rest.length) ++ bytes ": " ++ stop.cause.message

/-- Reads a document, or says at which offset it stops being JSON. -/
def read (t : Bytes) : Except Bytes Node :=
  (document t).mapError fun stop => stop.describe t

end Json

end HeaderForge
