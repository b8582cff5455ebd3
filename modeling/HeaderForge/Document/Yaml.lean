import HeaderForge.Bytes.KeySet
import HeaderForge.Document.Yaml.Line
import HeaderForge.Document.Yaml.Scalar
/-!
# Reading YAML

Block mappings and sequences by indentation, flow collections on one line, and literal and folded
block scalars. Anchors and tags are not interpreted.

1. `flow` reads a flow collection. It recurses on the levels of nesting that are left.
2. `block`, `sequence`, `mapping` and `nested` read the lines that are left and return the lines
   after what they read. An item `- key: value` opens a mapping: the line is replaced by one whose
   content is what follows the dash, at the column where it stands.
3. Each of them spends one unit of a bound. `weight` says what is enough: every line counts its
   content, because a line that is not used up becomes shorter.
-/

namespace HeaderForge

namespace Yaml

/-- Collections may lie this many levels below the root where the depth is checked: on entering an
indented block and on entering a flow collection. -/
def maxDepth : Nat := 256

/-- Why reading stopped. -/
inductive Cause where
  | tooDeep
  | unexpectedIndentation
  | expectedEntry
  | duplicateKey (key : Bytes)
  | openFlow
  | expectedFlowEntry
  | duplicateFlowKey (key : Bytes)
  /-- The bound ran out; `weight` is chosen so that this never happens. -/
  | exhausted
deriving DecidableEq, Repr

def Cause.message : Cause → Bytes
  | tooDeep => bytes "nesting too deep"
  | unexpectedIndentation => bytes "unexpected indentation"
  | expectedEntry => bytes "expected 'key: value'"
  | duplicateKey key => bytes "duplicate key '" ++ key ++ bytes "'"
  | openFlow => bytes "multi-line flow collections are not supported"
  | expectedFlowEntry => bytes "expected 'key: value' in inline map"
  | duplicateFlowKey key => bytes "duplicate key '" ++ key ++ bytes "' in inline map"
  | exhausted => bytes "input too long"

/-- A refusal: the number of the line and why it cannot be read. -/
structure Stop where
  line : Nat
  cause : Cause
deriving DecidableEq, Repr

/-- A step returns what it read and the lines after it. -/
abbrev Step := Except Stop

/-! ## Flow collections -/

/-- Whether a text opens a flow collection. -/
def opensFlow (t : Bytes) : Bool :=
  t.head? = some (byte '\x7b') || t.head? = some (byte '[')

/-- The bracket that closes a flow collection opened by the given text. -/
def closing (t : Bytes) : UInt8 :=
  if t.head? = some (byte '\x7b') then byte '\x7d' else byte ']'

/-- The text without its first and last byte. -/
def inside (t : Bytes) : Bytes := Bytes.trim (t.drop 1).dropLast

/-- The parts of a flow sequence, each read by `item`. -/
def flowItems (item : Bytes → Step Node) : List Bytes → Step (List Node)
  | [] => .ok []
  | part :: rest => do
    let first ← item part
    let others ← flowItems item rest
    return first :: others

/-- The parts of a flow mapping on the given line. A key may not come again. -/
def flowEntries (line : Nat) (item : Bytes → Step Node) :
    (earlier : KeySet) → List Bytes → Step (List (Bytes × Node))
  | _, [] => .ok []
  | earlier, part :: rest =>
    match breakAtColon? .start part with
    | none => .error ⟨line, .expectedFlowEntry⟩
    | some (before, after) =>
      let key := keyText before
      if earlier.contains key then .error ⟨line, .duplicateFlowKey key⟩
      else do
        let first ← item (Bytes.trim after)
        let others ← flowEntries line item (earlier.insert key) rest
        return (key, first) :: others

/-- A flow collection with at most the given number of levels. Its last byte closes it, whatever
that byte is. -/
def flow (line : Nat) : (levels : Nat) → Bytes → Step Node
  | 0, _ => .error ⟨line, .tooDeep⟩
  | levels + 1, t =>
    let item := fun part => if opensFlow part then flow line levels part else .ok (scalar part)
    if t.head? = some (byte '[') then
      (flowItems item (flowParts (inside t))).map .arr
    else
      (flowEntries line item .empty (flowParts (inside t))).map .obj

/-! ## Block scalars -/

/-- A line of a literal scalar keeps what it is indented beyond the first one. -/
def literalLine (base : Nat) (line : Line) : Bytes :=
  List.replicate (line.indent - base) (byte ' ') ++ line.raw

/-- The text of a block scalar: the lines of a folded one are joined by spaces. -/
def blockText (header : Bytes) (lines : List Line) : Bytes :=
  let folded := header.head? = some (byte '>')
  let base := (lines.head?.map Line.indent).getD 0
  let text :=
    if folded then Bytes.join [byte ' '] (lines.map Line.raw)
    else Bytes.join [byte '\n'] (lines.map (literalLine base))
  if byte '-' ∈ header || text.isEmpty then text else text ++ [byte '\n']

/-! ## Blocks -/

/-- What stands after the dash of an item. -/
def afterDash (content : Bytes) : Bytes := Bytes.trim (content.drop 2)

/-- Whether the text after a dash is a value on its own, however many colons it has. -/
def startsValue (t : Bytes) : Bool :=
  opensFlow t || t.head? = some (byte '"') || t.head? = some (byte '\'')

/-- Adds an item in front of the sequence that a step reads. -/
def addItem (item : Node) (more : Step (List Node × List Line)) : Step (List Node × List Line) :=
  more.map fun (items, rest) => (item :: items, rest)

mutual
/-- The block that starts with the first of the lines. -/
def block : (bound : Nat) → (indent depth : Nat) → List Line → Step (Node × List Line)
  | 0, _, _, lines => .error ⟨(lines.head?.map Line.number).getD 1, .exhausted⟩
  | bound + 1, indent, depth, lines =>
    match lines with
    | [] => .ok (.obj [], [])
    | line :: _ =>
      if depth > maxDepth then .error ⟨line.number, .tooDeep⟩
      else if Line.isDash line.content then
        (sequence bound indent depth lines).map fun (items, rest) => (.arr items, rest)
      else
        (mapping bound indent depth .empty lines).map fun (entries, rest) => (.obj entries, rest)

/-- The items at an indentation. -/
def sequence : (bound : Nat) → (indent depth : Nat) → List Line → Step (List Node × List Line)
  | 0, _, _, lines => .error ⟨(lines.head?.map Line.number).getD 1, .exhausted⟩
  | bound + 1, indent, depth, lines =>
    match lines with
    | [] => .ok ([], [])
    | line :: after =>
      if line.indent != indent || !Line.isDash line.content then .ok ([], lines)
      else
        let rest := afterDash line.content
        if rest.isEmpty then
          if (after.head?.map fun next => decide (next.indent > indent)).getD false then do
            let (item, after) ←
              block bound ((after.head?.map Line.indent).getD 0) (depth + 1) after
            addItem item (sequence bound indent depth after)
          else addItem .null (sequence bound indent depth after)
        else if !startsValue rest && (breakAtKeyColon? .start rest).isSome then do
          let column := indent + (line.content.length - rest.length)
          let opened := { line with indent := column, content := rest }
          let (entries, after) ← mapping bound column (depth + 1) .empty (opened :: after)
          addItem (.obj entries) (sequence bound indent depth after)
        else do
          let (item, after) ← nested bound rest indent line.number (depth + 1) after
          addItem item (sequence bound indent depth after)

/-- The entries at an indentation. The keys that came before may not come again. -/
def mapping : (bound : Nat) → (indent depth : Nat) → (earlier : KeySet) → List Line →
    Step (List (Bytes × Node) × List Line)
  | 0, _, _, _, lines => .error ⟨(lines.head?.map Line.number).getD 1, .exhausted⟩
  | bound + 1, indent, depth, earlier, lines =>
    match lines with
    | [] => .ok ([], [])
    | line :: after =>
      if line.indent < indent then .ok ([], lines)
      else if line.indent > indent then .error ⟨line.number, .unexpectedIndentation⟩
      else if Line.isDash line.content then .ok ([], lines)
      else
        match breakAtKeyColon? .start line.content with
        | none => .error ⟨line.number, .expectedEntry⟩
        | some (before, inline) => do
          let key := keyText before
          let (item, after) ←
            nested bound (Bytes.trim inline) indent line.number (depth + 1) after
          if earlier.contains key then throw ⟨line.number, .duplicateKey key⟩
          else
            let (entries, after) ← mapping bound indent depth (earlier.insert key) after
            return ((key, item) :: entries, after)

/-- The value of an entry or item: what stands on its line, or else the block below it. -/
def nested : (bound : Nat) → (inline : Bytes) → (parent line depth : Nat) → List Line →
    Step (Node × List Line)
  | 0, _, _, line, _, _ => .error ⟨line, .exhausted⟩
  | bound + 1, inline, parent, line, depth, lines =>
    match inline.head? with
    | none =>
      match lines with
      | [] => .ok (.null, [])
      | next :: _ =>
        if next.indent > parent then block bound next.indent depth lines
        else if next.indent == parent && Line.isDash next.content then
          (sequence bound parent depth lines).map fun (items, rest) => (.arr items, rest)
        else .ok (.null, lines)
    | some first =>
      if first == byte '|' || first == byte '>' then
        let inBlock := fun (next : Line) => decide (next.indent > parent)
        .ok (.str (blockText inline (lines.takeWhile inBlock)), lines.dropWhile inBlock)
      else if opensFlow inline then
        if inline.getLast? = some (closing inline) then
          (flow line (maxDepth + 1 - depth) inline).map fun n => (n, lines)
        else .error ⟨line, .openFlow⟩
      else .ok (scalar inline, lines)
end

/-- Each byte of content and each line may be visited by a few steps. -/
def weight (lines : List Line) : Nat :=
  (lines.map fun line => 4 * (line.content.length + 1)).foldr (· + ·) 0 + 4

/-- The block of all lines. -/
def document (lines : List Line) : Step Node :=
  match lines with
  | [] => .ok .null
  | first :: _ => do
    let (n, rest) ← block (weight lines) first.indent 0 lines
    match rest with
    | [] => return n
    | left :: _ => throw ⟨left.number, .unexpectedIndentation⟩

def Stop.describe (stop : Stop) : Bytes :=
  bytes "line " ++ natText stop.line ++ bytes ": " ++ stop.cause.message

/-- Reads a document, or says on which line it cannot be read. -/
def read (t : Bytes) : Except Bytes Node :=
  match Line.ofText t with
  | [] => .error (bytes "empty document")
  | lines => (document lines).mapError Stop.describe

end Yaml

end HeaderForge
