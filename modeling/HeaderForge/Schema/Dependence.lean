import HeaderForge.Document.Printer
import HeaderForge.Schema.Reference
/-!
# What a class depends on

The header of a schema is shaped by the settings, by the schema, and by every schema that its
references lead to. `Index.dependenceHash` is one hash over all of them, so a header is up to date
as long as the hash is the one that it was written with.
-/

namespace HeaderForge

namespace Index

/-- Goes through the pending schemas, the one that came first first. The names that it refers to are
found, but for its own one and those that were found before, and their schemas are gone through in
turn. No name is found twice, so the number of names bounds the visits. -/
def spread (index : Index) (own : Bytes) :
    (visits : Nat) → (found : List Bytes) → (pending : List Schema) → List Bytes
  | 0, found, _ => found
  | _ + 1, found, [] => found
  | visits + 1, found, next :: rest =>
    let fresh := (index.directReferences next).filter fun name =>
      name ≠ own && !found.contains name
    spread index own visits (found ++ fresh)
      (rest ++ (fresh.filterMap index.find?).map NamedSchema.schema)

/-- The names of the other schemas that a schema leads to, in order. -/
def dependencies (index : Index) (s : NamedSchema) : List Bytes :=
  Bytes.sortDistinct (index.spread s.name (index.names.length + 1) [] [s.schema])

/-- The canonical text of what declares a name. -/
def sourceText (index : Index) (name : Bytes) : Bytes :=
  match index.find? name with
  | some s => s.schema.info.source.canonical
  | none => bytes "null"

/-- The settings, the schema and what it depends on, as one text. -/
def dependenceText (index : Index) (s : NamedSchema) (settings : Bytes) : Bytes :=
  settings ++ byte '\n' :: s.schema.info.source.canonical ++
    (index.dependencies s).flatMap fun name =>
      byte '\n' :: name ++ byte '=' :: index.sourceText name

def dependenceHash (index : Index) (s : NamedSchema) (settings : Bytes) : Bytes :=
  Hash.text (Hash.fnv1a (index.dependenceText s settings))

end Index

end HeaderForge
