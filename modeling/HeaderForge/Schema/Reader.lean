import HeaderForge.Document.Printer
import HeaderForge.Schema.Basic
/-!
# Reading schemas

Which form a schema has is decided by the keys of its document node, the first of these that it
has: a reference, members of a composition, the values of an enumeration, and last its type. The
properties beside an `allOf` are its last member.

`Schema.ofNode` recurses on the levels of nesting that are left. Its context names the place in the
document for the only refusal there is.
-/

namespace HeaderForge

namespace Schema

/-- Schemas may lie this many levels below a named one. -/
def maxDepth : Nat := 64

def tooDeep (context : Bytes) : Bytes :=
  context ++ bytes ": schema nesting exceeds " ++ natText maxDepth ++ bytes " levels"

/-- The strings and numbers of a list, where there is one. -/
def stringList (n : Option Node) : List Bytes :=
  match n with
  | some (.arr items) =>
    items.filterMap fun
      | .str value => some value
      | .num lexeme => some lexeme
      | _ => none
  | _ => []

/-- What a `type` entry says: the keyword, the primitive it names and whether null is allowed. -/
structure TypeEntry where
  keyword : Bytes
  primitive : Primitive
  nullable : Bool

/-- The entry of a list of types, whose first keyword other than `null` counts. -/
def TypeEntry.ofList : List Node → TypeEntry → TypeEntry
  | [], entry => entry
  | item :: rest, entry =>
    if item.text = bytes "null" then ofList rest { entry with nullable := true }
    else if !entry.keyword.isEmpty then ofList rest entry
    else
      ofList rest
        { entry with
          keyword := item.text
          primitive := (Primitive.ofKeyword? item.text).getD entry.primitive }

def TypeEntry.ofNode (n : Option Node) : TypeEntry :=
  match n with
  | some (.str keyword) => ⟨keyword, (Primitive.ofKeyword? keyword).getD .any, false⟩
  | some (.arr items) => ofList items ⟨[], .any, false⟩
  | _ => ⟨[], .any, false⟩

/-- What the keys of a node say that every form of schema shares. -/
def readInfo (n : Node) : SchemaInfo where
  primitive := .any
  format := (n.stringAt? (bytes "format")).getD []
  description := (n.stringAt? (bytes "description")).getD []
  sample := ((n.find? (bytes "example")).map Node.scalarText).getD []
  nullable :=
    (n.boolAt? (bytes "nullable")).getD false || (n.boolAt? (bytes "x-nullable")).getD false
  deprecated := (n.boolAt? (bytes "deprecated")).getD false
  hasType := false
  source := n

/-- The information of the last member that an `allOf` gets from the properties beside it. -/
def siblingInfo (n : Node) : SchemaInfo where
  primitive := .any
  format := []
  description := []
  sample := []
  nullable := false
  deprecated := false
  hasType := true
  source := n

def readDiscriminator (n : Node) : Option Discriminator :=
  let found : Discriminator :=
    match n.find? (bytes "discriminator") with
    | some (.str property) => ⟨property, []⟩
    | some (.obj entries) =>
      let mapping := ((Node.obj entries).find? (bytes "mapping")).bind Node.entries?
      ⟨((Node.obj entries).stringAt? (bytes "propertyName")).getD [],
        (mapping.getD []).map fun (tag, target) => (tag, target.scalarText)⟩
    | _ => ⟨[], []⟩
  if found.property.isEmpty then none else some found

/-- The literals of an enumeration; null is none of them. -/
def readLiterals (values : List Node) : List Literal :=
  (values.filter fun v => !v.isNull).map fun v => ⟨v.scalarText, v.isString⟩

/-- The members of a composition, numbered from `place` on. -/
def readMembers (build : Bytes → Node → Except Bytes Schema) (context : Bytes) :
    (place : Nat) → List Node → Except Bytes (List Schema)
  | _, [] => .ok []
  | place, n :: rest => do
    let member ← build (context ++ byte '/' :: natText place) n
    let members ← readMembers build context (place + 1) rest
    return member :: members

def readProperties (build : Bytes → Node → Except Bytes Schema) (context : Bytes) :
    List (Bytes × Node) → Except Bytes (List (Bytes × Schema))
  | [] => .ok []
  | (key, n) :: rest => do
    let property ← build (context ++ byte '.' :: key) n
    let properties ← readProperties build context rest
    return (key, property) :: properties

def readExtra (build : Bytes → Node → Except Bytes Schema) (context : Bytes) (n : Option Node) :
    Except Bytes (Extra Schema) :=
  match n with
  | some (.bool true) => .ok .anything
  | some (.obj []) => .ok .anything
  | some (.obj entries) => return .each (← build (context ++ bytes "\x7b\x7d") (.obj entries))
  | _ => .ok .closed

/-- The object that the keys of a node describe. -/
def readObject (build : Bytes → Node → Except Bytes Schema) (context : Bytes) (info : SchemaInfo)
    (n : Node) : Except Bytes Schema := do
  let entries := ((n.find? (bytes "properties")).bind Node.entries?).getD []
  let properties ← readProperties build context entries
  let extra ← readExtra build context (n.find? (bytes "additionalProperties"))
  return .object info properties (stringList (n.find? (bytes "required"))) extra

def itemsAt? (n : Node) (key : Bytes) : Option (List Node) := (n.find? key).bind Node.items?

/-- The union that a node describes by its members, if it does. -/
def unionAt? (n : Node) : Option (UnionKind × List Node) :=
  match itemsAt? n (bytes "oneOf") with
  | some members => some (.oneOf, members)
  | none => (itemsAt? n (bytes "anyOf")).map fun members => (.anyOf, members)

/-- The value of a `const` entry other than null. -/
def constAt? (n : Node) : Option Node :=
  match n.find? (bytes "const") with
  | some .null => none
  | value => value

/-- The schema of a node that is no reference. -/
def ofKeys (build : Bytes → Node → Except Bytes Schema) (context : Bytes) (n : Node) :
    Except Bytes Schema :=
  let type := TypeEntry.ofNode (n.find? (bytes "type"))
  let shared := readInfo n
  let info := { shared with
    primitive := type.primitive
    nullable := shared.nullable || type.nullable
    hasType := (n.find? (bytes "type")).isSome }
  let enumInfo := if info.hasType then info else { info with primitive := .string }
  match itemsAt? n (bytes "allOf") with
  | some members => do
    let members ← readMembers build context 0 members
    if (n.find? (bytes "properties")).isSome || (n.find? (bytes "required")).isSome then
      let sibling ← readObject build context (siblingInfo n) n
      return .allOf info (members ++ [sibling])
    else return .allOf info members
  | none =>
    match unionAt? n with
    | some (kind, members) => do
      return .union info kind (← readMembers build context 0 members) (readDiscriminator n)
    | none =>
      match itemsAt? n (bytes "enum"), constAt? n with
      | some values, _ =>
        .ok (.enumeration
          { enumInfo with nullable := enumInfo.nullable || values.any Node.isNull }
          ⟨readLiterals values, stringList (n.find? (bytes "x-enumNames")),
            stringList (n.find? (bytes "x-enum-varnames"))⟩)
      | none, some value => .ok (.enumeration enumInfo ⟨readLiterals [value], [], []⟩)
      | none, none =>
        if type.keyword = bytes "array" then
          match n.find? (bytes "items") with
          | some items => return .array info (some (← build (context ++ bytes "[]") items))
          | none => .ok (.array info none)
        else if type.keyword = bytes "object" || (!info.hasType &&
            ((n.find? (bytes "properties")).isSome ||
              (n.find? (bytes "additionalProperties")).isSome)) then
          readObject build context info n
        else .ok (.primitive info)

/-- The schema that a node describes, with at most the given number of levels. A node that is no
object is a placeholder for any value. -/
def ofNode : (levels : Nat) → (context : Bytes) → Node → Except Bytes Schema
  | 0, context, _ => .error (tooDeep context)
  | levels + 1, context, n =>
    match n with
    | .obj entries =>
      let n := Node.obj entries
      match n.stringAt? (bytes "$ref") with
      | some token => .ok (.reference (readInfo n) token)
      | none => ofKeys (ofNode levels) context n
    | n => .ok (.primitive (readInfo n))

end Schema

end HeaderForge
