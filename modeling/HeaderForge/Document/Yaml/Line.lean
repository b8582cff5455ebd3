import HeaderForge.Bytes
/-!
# Lines of a YAML text

A YAML text is read line by line. A line counts its leading spaces as indentation; blank lines,
comment lines and document marks are left out, also inside block scalars.

1. `Scan` walks over a line and knows whether it is inside quotes and how many brackets are open.
   All searches for separators use it.
2. `Line.ofText` cuts a text into its lines.
-/

namespace HeaderForge

namespace Yaml

/-! ## Scanning outside quotes and brackets -/

/-- Where a scan of a line stands. Closing brackets that nothing opened count below zero. -/
structure Scan where
  inSingle : Bool
  inDouble : Bool
  depth : Int
deriving DecidableEq, Repr

namespace Scan

def start : Scan := ⟨false, false, 0⟩

def outsideQuotes (s : Scan) : Bool := !s.inSingle && !s.inDouble

/-- Outside quotes and outside brackets. -/
def atTop (s : Scan) : Bool := s.outsideQuotes && s.depth == 0

/-- The scan after one more byte. A quote of one kind means nothing inside quotes of the other. -/
def step (s : Scan) (b : UInt8) : Scan :=
  if b == byte '\'' && !s.inDouble then { s with inSingle := !s.inSingle }
  else if b == byte '"' && !s.inSingle then { s with inDouble := !s.inDouble }
  else if !s.outsideQuotes then s
  else if b == byte '\x7b' || b == byte '[' then { s with depth := s.depth + 1 }
  else if b == byte '\x7d' || b == byte ']' then { s with depth := s.depth - 1 }
  else s

end Scan

/-- The text before and after the colon that ends a key: outside quotes and brackets, and followed
by a space, a tab or nothing. -/
def breakAtKeyColon? : Scan → Bytes → Option (Bytes × Bytes)
  | _, [] => none
  | s, b :: rest =>
    if b == byte ':' && s.atTop && (rest.isEmpty || rest.head? == some (byte ' ') ||
        rest.head? == some (byte '\t')) then some ([], rest)
    else (breakAtKeyColon? (s.step b) rest).map fun (before, after) => (b :: before, after)

/-- As `breakAtKeyColon?` inside a flow mapping, where nothing has to follow the colon. -/
def breakAtColon? : Scan → Bytes → Option (Bytes × Bytes)
  | _, [] => none
  | s, b :: rest =>
    if b == byte ':' && s.atTop then some ([], rest)
    else (breakAtColon? (s.step b) rest).map fun (before, after) => (b :: before, after)

/-- The pieces between commas that stand outside quotes and brackets. -/
def splitAtCommas : Scan → Bytes → List Bytes
  | _, [] => [[]]
  | s, b :: rest =>
    if b == byte ',' && s.atTop then [] :: splitAtCommas s rest
    else
      match splitAtCommas (s.step b) rest with
      | [] => [[b]]
      | first :: others => (b :: first) :: others

/-- The parts of a flow collection, trimmed. An empty part after the last comma is none. -/
def flowParts (inner : Bytes) : List Bytes :=
  let parts := (splitAtCommas .start inner).map Bytes.trim
  if parts.getLast? = some [] then parts.dropLast else parts

/-- The text before a comment. A hash sign starts one at the start of a text or after a space or a
tab, outside quotes. -/
def beforeComment? (s : Scan) (afterBlank : Bool) : Bytes → Option Bytes
  | [] => none
  | b :: rest =>
    if b == byte '#' && s.outsideQuotes && afterBlank then some []
    else
      (beforeComment? (s.step b) (b == byte ' ' || b == byte '\t') rest).map fun before =>
        b :: before

def dropComment (content : Bytes) : Bytes :=
  match beforeComment? .start true content with
  | some before => Bytes.trim before
  | none => content

/-! ## Lines -/

structure Line where
  indent : Nat
  /-- The text of the line without its comment. -/
  content : Bytes
  /-- The text of the line, trimmed. -/
  raw : Bytes
  /-- The place in the text, from one. -/
  number : Nat
deriving DecidableEq, Repr

namespace Line

def dropCarriageReturn (t : Bytes) : Bytes :=
  if t.getLast? = some (byte '\r') then t.dropLast else t

/-- The line that a piece of text holds, if any. -/
def ofPiece? (number : Nat) (piece : Bytes) : Option Line :=
  let line := dropCarriageReturn piece
  let indent := (line.takeWhile (· == byte ' ')).length
  let raw := Bytes.trim (line.drop indent)
  if raw.isEmpty || raw.head? = some (byte '#') || raw = bytes "---" || raw = bytes "..." then none
  else some ⟨indent, dropComment raw, raw, number⟩

/-- The lines of pieces that are numbered from a given number on. -/
def ofPieces : (number : Nat) → List Bytes → List Line
  | _, [] => []
  | number, piece :: rest =>
    match ofPiece? number piece with
    | some line => line :: ofPieces (number + 1) rest
    | none => ofPieces (number + 1) rest

def ofText (t : Bytes) : List Line := ofPieces 1 (Bytes.splitAll (byte '\n') t)

/-- Whether the line is an item of a block sequence. -/
def isDash (content : Bytes) : Bool :=
  content = [byte '-'] || Bytes.startsWith content (bytes "- ")

end Line

end Yaml

end HeaderForge
