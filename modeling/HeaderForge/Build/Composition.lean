import HeaderForge.Build.Basic
import HeaderForge.Build.Fields
/-!
# Composed schemas

A schema composed by `allOf` is flattened: the fields of the object fragments that it leads to are
merged, depth first and from left to right.

1. `flatten` gathers the fields. A named fragment contributes once, and one that is still being
   expanded is only noted by its name.
2. `findProperty` finds the schema of one property in the same fragments, the last one first, and
   `propertyKeys` lists their keys.

Each walk recurses on the schema and hands references to a function for named schemas. Following a
reference uses up a name, so the number of named schemas bounds how often that happens.
-/

namespace HeaderForge

/-- What a schema is called where it is an alternative or a fragment without a name. -/
def Schema.describe : Schema → Bytes
  | .primitive info => info.primitive.text
  | s => s.kindText

/-- An object schema that fields are read from. -/
structure Fragment where
  info : SchemaInfo
  properties : List (Bytes × Schema)
  required : List Bytes
  extra : Extra Schema

structure Flattening where
  fields : List Field
  composedFrom : List Ancestor
  /-- The named schemas that have been expanded. -/
  contributed : List Bytes

namespace Build

/-! ## Flattening -/

/-- How a walk reads fragments, for which class, and how it goes on at a named schema. -/
structure FlattenContext where
  index : Index
  owner : Bytes
  read : Fragment → Build (List Field)
  expand : NamedSchema → Flattening → Build Flattening

def composing (owner message : Bytes) : Build Unit :=
  detail (bytes "compose") (owner ++ bytes ": " ++ message)

/-- Notes a schema that was met while it is being expanded. -/
def noteReused (name : Bytes) (st : Flattening) : Flattening :=
  if st.composedFrom.any fun a => a.schemaName = name then st
  else { st with composedFrom := st.composedFrom ++ [⟨name, [], true⟩] }

def noteExpanded (name : Bytes) (st : Flattening) : Flattening :=
  { st with
    composedFrom := st.composedFrom ++ [⟨name, [], false⟩]
    contributed := name :: st.contributed }

/-- Expands a named schema that a reference leads to, unless it is open or has contributed. -/
def contributeNamed (c : FlattenContext) (target : NamedSchema) (st : Flattening) :
    Build Flattening :=
  visiting target.name fun entered => do
    if !entered then
      composing c.owner (target.name ++ bytes " is still being expanded, reusing it by name")
      return noteReused target.name st
    else if target.name ∈ st.contributed then
      composing c.owner (target.name ++ bytes " already contributed through another path")
      return st
    else
      composing c.owner (bytes "flattening " ++ target.name)
      c.expand target (noteExpanded target.name st)

def contributeFragment (c : FlattenContext) (fragment : Fragment) (st : Flattening) :
    Build Flattening := do
  let fields ← c.read fragment
  composing c.owner (bytes "merging " ++ natText fields.length ++ bytes " field(s)")
  return { st with fields := Field.merge st.fields fields }

def contributeNothing (c : FlattenContext) (s : Schema) (st : Flattening) : Build Flattening := do
  warning (bytes "composition") c.owner
    (bytes "allOf fragment of kind " ++ s.describe ++ bytes " contributes no fields")
  return st

mutual
/-- Adds what a schema contributes. A schema that only annotates contributes nothing. -/
def contribute (c : FlattenContext) : Schema → Flattening → Build Flattening
  | .reference _ token, st => do
    contributeNamed c (← resolve c.index token c.owner) st
  | .allOf _ members, st => contributeAll c members st
  | .object info properties required extra, st =>
    contributeFragment c ⟨info, properties, required, extra⟩ st
  | .primitive info, st =>
    if info.hasType then contributeNothing c (.primitive info) st else return st
  | .array info items, st => contributeNothing c (.array info items) st
  | .enumeration info values, st => contributeNothing c (.enumeration info values) st
  | .union info kind members discriminator, st =>
    contributeNothing c (.union info kind members discriminator) st

def contributeAll (c : FlattenContext) : List Schema → Flattening → Build Flattening
  | [], st => return st
  | s :: rest, st => do contributeAll c rest (← contribute c s st)
end

/-- The walk from a schema that may go on at the given number of named ones. -/
def flattenWithin (index : Index) (owner : Bytes) (read : Fragment → Build (List Field)) :
    (bound : Nat) → Schema → Flattening → Build Flattening
  | 0, _, st => return st
  | bound + 1, s, st =>
    contribute
      ⟨index, owner, read, fun target st => flattenWithin index owner read bound target.schema st⟩
      s st

/-- The fields of a composed schema, read fragment by fragment. -/
def flatten (index : Index) (s : Schema) (owner : Bytes) (read : Fragment → Build (List Field)) :
    Build Flattening := do
  if let .allOf _ members := s then
    composing owner (bytes "allOf over " ++ natText members.length ++ bytes " fragment(s)")
  flattenWithin index owner read (index.named.length + 1) s ⟨[], [], []⟩

/-! ## Single properties -/

/-- How a search goes on at a named schema, given the names that it has seen. -/
structure SearchContext (α : Type) where
  index : Index
  owner : Bytes
  enter : NamedSchema → List Bytes → Build (α × List Bytes)
  /-- What is found where the search does not go on. -/
  nothing : α

/-- Goes on at a named schema unless it has been seen. -/
def searchNamed {α : Type} (c : SearchContext α) (target : NamedSchema) (seen : List Bytes) :
    Build (α × List Bytes) :=
  if target.name ∈ seen then return (c.nothing, seen) else c.enter target (target.name :: seen)

mutual
/-- The schema of a property, from the last fragment that declares it. -/
def findIn (c : SearchContext (Option Schema)) (key : Bytes) :
    Schema → List Bytes → Build (Option Schema × List Bytes)
  | .reference _ token, seen => do searchNamed c (← resolve c.index token c.owner) seen
  | .object _ properties _ _, seen => return (properties.lookup key, seen)
  | .allOf _ members, seen => findInLast c key members seen
  | _, seen => return (none, seen)

def findInLast (c : SearchContext (Option Schema)) (key : Bytes) :
    List Schema → List Bytes → Build (Option Schema × List Bytes)
  | [], seen => return (none, seen)
  | s :: rest, seen => do
    match ← findInLast c key rest seen with
    | (some found, seen) => return (some found, seen)
    | (none, seen) => findIn c key s seen
end

def findWithin (index : Index) (owner key : Bytes) :
    (bound : Nat) → Schema → List Bytes → Build (Option Schema × List Bytes)
  | 0, _, seen => return (none, seen)
  | bound + 1, s, seen =>
    findIn ⟨index, owner, fun target => findWithin index owner key bound target.schema, none⟩ key s
      seen

/-- The schema of a property of a named schema, through references and members. -/
def findProperty (index : Index) (s : NamedSchema) (key owner : Bytes) : Build (Option Schema) := do
  let (found, _) ← findWithin index owner key (index.named.length + 1) s.schema [s.name]
  return found

mutual
/-- The keys of the properties that a schema declares, in order. -/
def keysIn (c : SearchContext (List Bytes)) :
    Schema → List Bytes → Build (List Bytes × List Bytes)
  | .reference _ token, seen => do searchNamed c (← resolve c.index token c.owner) seen
  | .object _ properties _ _, seen => return (properties.map Prod.fst, seen)
  | .allOf _ members, seen => keysInAll c members seen
  | _, seen => return ([], seen)

def keysInAll (c : SearchContext (List Bytes)) :
    List Schema → List Bytes → Build (List Bytes × List Bytes)
  | [], seen => return ([], seen)
  | s :: rest, seen => do
    let (first, seen) ← keysIn c s seen
    let (others, seen) ← keysInAll c rest seen
    return (first ++ others, seen)
end

def keysWithin (index : Index) (owner : Bytes) :
    (bound : Nat) → Schema → List Bytes → Build (List Bytes × List Bytes)
  | 0, _, seen => return ([], seen)
  | bound + 1, s, seen =>
    keysIn ⟨index, owner, fun target => keysWithin index owner bound target.schema, []⟩ s seen

/-- The keys of the properties of a named schema, each once, through references and members. -/
def propertyKeys (index : Index) (s : NamedSchema) (owner : Bytes) : Build (List Bytes) := do
  let (keys, _) ← keysWithin index owner (index.named.length + 1) s.schema [s.name]
  return keys.eraseDups

end Build

end HeaderForge
