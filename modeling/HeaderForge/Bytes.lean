/-!
# Byte text

Documents, names and generated code are sequences of bytes: nothing in this library assumes that a
text is valid UTF-8. Letters, digits and blanks are the ASCII ones, and every other byte stands for
itself.

1. `bytes` writes a literal.
2. `Byte.isBlank`, `Byte.isDigit`, … are the character classes.
3. `trim`, `lines`, `breakOn?` cut texts; `natText` and `hexText` write numbers.
-/

namespace HeaderForge

/-- A text is a sequence of bytes, ordered by unsigned byte and then by length. -/
abbrev Bytes := List UInt8

instance : LawfulBEq Bytes := inferInstanceAs (LawfulBEq (List UInt8))

/-- The bytes of a literal, which is ASCII. -/
def bytes (s : String) : Bytes := s.toList.map fun c => c.toNat.toUInt8

instance : Coe String Bytes := ⟨bytes⟩

/-- The byte of an ASCII character. -/
def byte (c : Char) : UInt8 := c.toNat.toUInt8

/-! ## Character classes -/

namespace Byte

/-- Space, tab, line feed, vertical tab, form feed and carriage return. -/
def isBlank (b : UInt8) : Bool := b == 0x20 || (0x09 ≤ b && b ≤ 0x0D)

def isDigit (b : UInt8) : Bool := 0x30 ≤ b && b ≤ 0x39
def isUpper (b : UInt8) : Bool := 0x41 ≤ b && b ≤ 0x5A
def isLower (b : UInt8) : Bool := 0x61 ≤ b && b ≤ 0x7A
def isLetter (b : UInt8) : Bool := isUpper b || isLower b
def isAlnum (b : UInt8) : Bool := isLetter b || isDigit b

/-- What an identifier is made of. -/
def isWord (b : UInt8) : Bool := isAlnum b || b == byte '_'

def toUpper (b : UInt8) : UInt8 := if isLower b then b - 0x20 else b
def toLower (b : UInt8) : UInt8 := if isUpper b then b + 0x20 else b

/-- The value of a hexadecimal digit of either case. -/
def hexValue? (b : UInt8) : Option Nat :=
  if isDigit b then some (b.toNat - 0x30)
  else if 0x61 ≤ b && b ≤ 0x66 then some (b.toNat - 0x61 + 10)
  else if 0x41 ≤ b && b ≤ 0x46 then some (b.toNat - 0x41 + 10)
  else none

/-- The lowercase hexadecimal digit of a value below sixteen. -/
def hexDigit (n : Nat) : UInt8 :=
  if n < 10 then (0x30 + n).toUInt8 else (0x61 + (n - 10)).toUInt8

end Byte

/-! ## Cutting -/

/-- Drops entries from the end of a list while they have a property. -/
def dropEndWhile {α : Type} (p : α → Bool) : List α → List α
  | [] => []
  | x :: rest =>
    match dropEndWhile p rest with
    | [] => if p x then [] else [x]
    | kept => x :: kept

namespace Bytes

/-- A text without the blanks at either end. -/
def trim (t : Bytes) : Bytes := dropEndWhile Byte.isBlank (t.dropWhile Byte.isBlank)

/-- The text before and after the first byte `stop`, or nothing when there is none. -/
def breakOn? (stop : UInt8) : Bytes → Option (Bytes × Bytes)
  | [] => none
  | b :: rest =>
    if b == stop then some ([], rest)
    else (breakOn? stop rest).map fun (before, after) => (b :: before, after)

/-- The pieces between the bytes `stop`: one more than there are such bytes. -/
def splitAll (stop : UInt8) : Bytes → List Bytes
  | [] => [[]]
  | b :: rest =>
    if b == stop then [] :: splitAll stop rest
    else
      match splitAll stop rest with
      | [] => [[b]]
      | first :: others => (b :: first) :: others

/-- What follows `front` in a text that starts with it. -/
def dropFront? : (front t : Bytes) → Option Bytes
  | [], t => some t
  | _ :: _, [] => none
  | f :: front, b :: t => if f == b then dropFront? front t else none

def startsWith (t front : Bytes) : Bool := (dropFront? front t).isSome
def endsWith (t back : Bytes) : Bool := startsWith t.reverse back.reverse

/-- Whether a text holds another one anywhere. -/
def holds (t part : Bytes) : Bool :=
  match t with
  | [] => part.isEmpty
  | _ :: rest => startsWith t part || holds rest part

/-! ## Joining and writing -/

/-- The parts with a separator between each two. -/
def join (separator : Bytes) : List Bytes → Bytes
  | [] => []
  | [part] => part
  | part :: rest => part ++ separator ++ join separator rest

theorem join_cons (separator part : Bytes) {rest : List Bytes} (more : rest ≠ []) :
    join separator (part :: rest) = part ++ separator ++ join separator rest := by
  cases rest with
  | nil => exact absurd rfl more
  | cons next rest => rfl

/-- A byte of joined parts is one of the separator or of a part. -/
theorem mem_of_mem_join {separator : Bytes} {parts : List Bytes} {b : UInt8}
    (member : b ∈ join separator parts) : b ∈ separator ∨ ∃ part, part ∈ parts ∧ b ∈ part := by
  induction parts with
  | nil => exact nomatch member
  | cons part rest ih =>
    by_cases more : rest = []
    · subst more
      exact .inr ⟨part, List.mem_cons_self, member⟩
    · rw [join_cons separator part more, List.mem_append, List.mem_append] at member
      rcases member with (here | between) | later
      · exact .inr ⟨part, List.mem_cons_self, here⟩
      · exact .inl between
      · exact (ih later).imp_right fun ⟨other, there, inside⟩ =>
          ⟨other, List.mem_cons_of_mem part there, inside⟩

/-- The lines, each ended by a line feed. -/
def unlines (lines : List Bytes) : Bytes := lines.flatMap (· ++ [byte '\n'])

end Bytes

/-- A line, or any other text, put together from its parts. -/
def row (parts : List Bytes) : Bytes := parts.flatten

/-- A number in decimal. -/
def natText (n : Nat) : Bytes := (Nat.toDigits 10 n).map byte

/-- A number in hexadecimal with the given count of lowercase digits; higher digits are cut. -/
def hexText : (digits n : Nat) → Bytes
  | 0, _ => []
  | digits + 1, n => hexText digits (n / 16) ++ [Byte.hexDigit (n % 16)]

end HeaderForge
