import HeaderForge.Failure
/-!
# Marked regions

A generated file says in an identity line which schema it belongs to, and holds its generated part
between an opening and a closing line. Everything around that part belongs to the user.

1. `lines` cuts a text into lines whose concatenation is the text.
2. `Region.locate` finds the part between the markers: it succeeds exactly when the only marker
   lines are one opening line and then one closing line.
3. `Region.splice` replaces a part, and `Region.merge` the generated part of the file of a schema.
-/

namespace HeaderForge

/-! ## Lines -/

/-- The lines of a text, each with the line feed that ends it. -/
def lines : Bytes → List Bytes
  | [] => []
  | b :: rest =>
    if b == byte '\n' then [b] :: lines rest
    else
      match lines rest with
      | [] => [[b]]
      | line :: others => (b :: line) :: others

def isSpaceOrTab (b : UInt8) : Bool := b == byte ' ' || b == byte '\t'

/-- A line without the spaces and tabs around it, and without carriage returns at its end. -/
def trimLine (line : Bytes) : Bytes :=
  (dropEndWhile (fun b => b == byte '\r' || isSpaceOrTab b) line).dropWhile isSpaceOrTab

/-- What a line of a text says. -/
def lineContent (line : Bytes) : Bytes := trimLine (dropEndWhile (· == byte '\n') line)

/-- A text that ends in a line feed, unless it is empty. -/
def ended (t : Bytes) : Bytes :=
  match t.getLast? with
  | none => []
  | some b => if b == byte '\n' then t else t ++ [byte '\n']

/-! ## Markers -/

/-- What marker lines say. Blanks around a marker do not count. -/
structure Markers where
  /-- What an identity line starts with; the name of the schema follows. -/
  identity : Bytes
  opening : Bytes
  closing : Bytes
deriving DecidableEq, Repr

namespace Markers

def standard : Markers where
  identity := bytes "// schemagen-model: "
  opening := bytes "// schemagen:begin"
  closing := bytes "// schemagen:end"

def identityLine (m : Markers) (schemaName : Bytes) : Bytes := m.identity ++ schemaName

end Markers

/-- The offset of the first line that says what is looked for, from the offset of the lines. -/
def findLine (wanted : Bytes) : (offset : Nat) → List Bytes → Option Nat
  | _, [] => none
  | offset, line :: rest =>
    if lineContent line = wanted then some offset
    else findLine wanted (offset + line.length) rest

/-- The offset of the first line of a text that says what is looked for. -/
def locateLine (t wanted : Bytes) : Option Nat := findLine wanted 0 (lines t)

/-- Whether a text says whose file it is. -/
def carries (m : Markers) (t schemaName : Bytes) : Bool :=
  (locateLine t (m.identityLine schemaName)).isSome

/-- The schema that the first identity line names. -/
def locateIdentity (t : Bytes) (m : Markers) : Option Bytes :=
  (lines t).findSome? fun line =>
    (Bytes.dropFront? (trimLine m.identity) (lineContent line)).map trimLine

/-! ## Regions -/

/-- The bytes between two offsets of a text. -/
structure Region where
  start : Nat
  stop : Nat
deriving DecidableEq, Repr

/-- A line of a text, from its first byte to the first byte of the next line. -/
structure LineSpan where
  start : Nat
  next : Nat
deriving DecidableEq, Repr

namespace Region

/-- The opening and the closing line among lines that begin at an offset, where those that were
found before are given. It ends at a line that comes a second time, and at a closing line that comes
before the opening one. -/
def scan (m : Markers) (offset : Nat) (opening closing : Option LineSpan) :
    List Bytes → Except FailureKind (Option LineSpan × Option LineSpan)
  | [] => .ok (opening, closing)
  | line :: rest =>
    let next := offset + line.length
    if lineContent line = m.opening then
      if opening.isSome then .error .markerConflict
      else scan m next (some ⟨offset, next⟩) closing rest
    else if lineContent line = m.closing then
      if closing.isSome || opening.isNone then .error .markerConflict
      else scan m next opening (some ⟨offset, next⟩) rest
    else scan m next opening closing rest

/-- What stands between the opening and the closing line. -/
def locate (t : Bytes) (m : Markers) : Except FailureKind Region := do
  match ← scan m 0 none none (lines t) with
  | (some opening, some closing) => return ⟨opening.next, closing.start⟩
  | _ => .error .markerConflict

/-- Replaces what stands in a region. What comes before it and what is put there end a line. -/
def splice (t : Bytes) (r : Region) (body : Bytes) : Bytes :=
  ended (t.take r.start) ++ ended body ++ t.drop r.stop

/-! ## Files of schemas -/

/-- A file that holds nothing but the generated part. -/
def composeNew (m : Markers) (schemaName body : Bytes) : Bytes :=
  m.identityLine schemaName ++ byte '\n' :: m.opening ++ byte '\n' :: ended body ++ m.closing ++
    [byte '\n']

/-- The text of the file of a schema with a new generated part. A text that is there must carry the
schema's identity and a well-marked region. -/
def merge (m : Markers) (existing : Option Bytes) (schemaName body : Bytes) :
    Except FailureKind Bytes :=
  match existing with
  | none => .ok (composeNew m schemaName body)
  | some t =>
    if carries m t schemaName then do
      let r ← locate t m
      return splice t r body
    else .error .markerConflict

end Region

end HeaderForge
