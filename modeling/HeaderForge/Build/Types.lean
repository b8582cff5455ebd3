import HeaderForge.Build.Basic
import HeaderForge.Bytes.KeySet
import HeaderForge.Naming
/-!
# From schemas to types

The type of a field or alias. References become the class of their target, an enumeration becomes
one that the class under construction declares, and an inline object stays a JSON value.

1. `enumMembers` names the members of an enumeration, all different.
2. `typeOf` maps a schema and records what the class under construction needs for it.
-/

namespace HeaderForge

namespace Naming

/-- A name with a number after it. -/
def numbered (name : Bytes) (n : Nat) : Bytes := name ++ byte '_' :: natText n

/-- The first numbered name from `n` on that is not used. -/
def firstFree (used : KeySet) (name : Bytes) : (bound n : Nat) → Bytes
  | 0, n => numbered name n
  | bound + 1, n =>
    if used.contains (numbered name n) then firstFree used name bound (n + 1) else numbered name n

/-- The names that are used so far. -/
structure Taken where
  count : Nat
  names : KeySet

namespace Taken

def none : Taken := ⟨0, .empty⟩

def take (t : Taken) (name : Bytes) : Taken := ⟨t.count + 1, t.names.insert name⟩

def has (t : Taken) (name : Bytes) : Bool := t.names.contains name

/-- A name that none of the used ones equals: the name itself, or the first free numbered one. Of as
many numbers as there are used names, one is free. -/
def unused (t : Taken) (name : Bytes) : Bytes :=
  if t.has name then firstFree t.names name t.count 2 else name

end Taken

end Naming

namespace Build

/-! ## Enumerations -/

/-- Names that are given for the members, if there is one for each. -/
def namesFor? (names : List Bytes) (literals : List Literal) : Option (List Bytes) :=
  if names.isEmpty || names.length != literals.length then none else some names

/-- Members for literals with display names, whose identifiers avoid those that are used. -/
def namedMembers : Naming.Taken → List (Literal × Bytes) → List EnumMember
  | _, [] => []
  | used, (literal, display) :: rest =>
    let name := used.unused (Naming.memberName display)
    ⟨name, literal.value, literal.isString⟩ :: namedMembers (used.take name) rest

/-- The members of an enumeration in literal order. The first list of names that fits names them,
and else the literals do. -/
def enumMembers (values : LiteralList) : List EnumMember :=
  let display :=
    ((namesFor? values.enumNames values.literals).or
      (namesFor? values.varNames values.literals)).getD (values.literals.map Literal.value)
  namedMembers .none (values.literals.zip display)

/-! ## Types -/

/-- For which class types are mapped, and what is configured for it. -/
structure TypeContext where
  index : Index
  /-- The class name of a schema. -/
  classNameOf : Bytes → Bytes
  ownerSchema : Bytes
  ownerClass : Bytes
  overrides : List (Bytes × Bytes)

/-- The type that is configured for a primitive with its format, or for the primitive. -/
def overrideFor? (overrides : List (Bytes × Bytes)) (info : SchemaInfo) : Option Bytes :=
  if info.primitive = .any then none
  else
    let kind := info.primitive.text
    let withFormat :=
      if info.format.isEmpty then none else overrides.lookup (kind ++ byte ':' :: info.format)
    withFormat.or (overrides.lookup kind)

def primitiveType (overrides : List (Bytes × Bytes)) (info : SchemaInfo) : TypeRef :=
  match overrideFor? overrides info with
  | some name => .custom name
  | none =>
    match info.primitive with
    | .string => .string
    | .integer => .integer
    | .number => .number
    | .boolean => .boolean
    | .any => .any

/-- Adds a dependency. A class that is needed already stays where it is, and is held indirectly if
it is anywhere. -/
def addDependency (d : Dependency) : List Dependency → List Dependency
  | [] => [d]
  | first :: rest =>
    if first.className = d.className then
      { first with indirect := first.indirect || d.indirect } :: rest
    else first :: addDependency d rest

/-- Adds an enumeration, in the place of one with its name. -/
def addEnum (e : EnumDef) : List EnumDef → List EnumDef
  | [] => [e]
  | first :: rest => if first.name = e.name then e :: rest else first :: addEnum e rest

def referenceType (c : TypeContext) (token : Bytes) : Build TypeRef := do
  let target ← resolve c.index token c.ownerSchema
  let indirect := c.index.closesCycle c.ownerSchema target.name
  if indirect then
    detail (bytes "types")
      (c.ownerSchema ++ bytes " -> " ++ target.name ++
        bytes " closes a reference cycle; held indirectly")
  let className := c.classNameOf target.name
  modify fun s =>
    { s with dependencies := addDependency ⟨className, target.name, indirect⟩ s.dependencies }
  return .named className indirect

/-- The names that an inline enumeration takes in turn when its name is a class's. -/
def enumNameAt (preferred : Bytes) (n : Nat) : Bytes :=
  if n < 2 then preferred ++ bytes "Enum" else preferred ++ bytes "Enum" ++ natText n

/-- The name of an enumeration that a class declares for a key: the class and the key in Pascal
case, unless that is the class of a schema. -/
def inlineEnumName (c : TypeContext) (key : Bytes) : Build Bytes := do
  let preferred := c.ownerClass ++ Naming.pascalCase key
  let taken := c.index.names.map c.classNameOf
  if preferred ∉ taken then return preferred
  else
    let candidates := (List.range' 1 (taken.length + 1)).map (enumNameAt preferred)
    let name := (candidates.find? fun n => n ∉ taken).getD preferred
    warn (bytes "types")
      (c.ownerSchema ++ byte '.' :: key ++ bytes ": inline enum " ++ preferred ++
        bytes " clashes with a schema class; named " ++ name)
    return name

def enumerationType (c : TypeContext) (key : Bytes) (info : SchemaInfo) (values : LiteralList) :
    Build TypeRef := do
  let name ← inlineEnumName c key
  let definition : EnumDef := ⟨name, info.primitive, enumMembers values, info.description⟩
  modify fun s => { s with inlineEnums := addEnum definition s.inlineEnums }
  return .enumeration name

/-- The type of a schema at a key. A composition of one member is that member. -/
def typeOf (c : TypeContext) (key : Bytes) : Schema → Build TypeRef
  | .reference _ token => referenceType c token
  | .primitive info => return primitiveType c.overrides info
  | .enumeration info values => enumerationType c key info values
  | .array _ none => return .list .any
  | .array _ (some items) => return .list (← typeOf c key items)
  | .object _ [] _ .anything => return .map .any
  | .object _ [] _ (.each extra) => return .map (← typeOf c key extra)
  | .object _ [] _ .closed => return .any
  | .object _ (_ :: _) _ _ => do
    detail (bytes "types")
      (c.ownerSchema ++ byte '.' :: key ++ bytes ": inline object kept as a JSON value")
    return .any
  | .allOf _ [member] => typeOf c key member
  | .allOf _ _ => return .any
  | .union _ _ _ _ => return .any

end Build

end HeaderForge
