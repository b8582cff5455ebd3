import HeaderForge.Document.Reader
import HeaderForge.Failure
import HeaderForge.Schema.Reader
/-!
# The index of a document

The named schemas of an API description in the order of their declaration, with the dialect that
says where in the document they are declared.
-/

namespace HeaderForge

inductive Dialect where
  | swagger2
  | openapi3
deriving DecidableEq, Repr

namespace Dialect

def text : Dialect → Bytes
  | swagger2 => bytes "swagger"
  | openapi3 => bytes "openapi"

/-- What a reference to a named schema of the same document starts with. -/
def referenceFront : Dialect → Bytes
  | swagger2 => bytes "#/definitions/"
  | openapi3 => bytes "#/components/schemas/"

end Dialect

structure Index where
  dialect : Dialect
  version : Bytes
  named : List NamedSchema
deriving Repr

namespace Index

def find? (index : Index) (name : Bytes) : Option NamedSchema :=
  index.named.find? fun s => s.name = name

def names (index : Index) : List Bytes := index.named.map NamedSchema.name

/-- The dialect, the version and the node that declares the schemas, if the document has one. -/
def header (doc : Node) : Except Failure (Dialect × Bytes × Option Node) :=
  match doc.find? (bytes "swagger"), doc.find? (bytes "openapi") with
  | some version, _ =>
    let version := version.scalarText
    if version.head? = some (byte '2') then
      .ok (.swagger2, version, doc.find? (bytes "definitions"))
    else
      .error ⟨.unsupportedDialect, bytes "swagger version " ++ version ++ bytes " is not supported"⟩
  | none, some version =>
    let version := version.scalarText
    if version.head? = some (byte '3') then
      .ok (.openapi3, version, (doc.find? (bytes "components")).bind (·.find? (bytes "schemas")))
    else
      .error ⟨.unsupportedDialect, bytes "openapi version " ++ version ++ bytes " is not supported"⟩
  | none, none =>
    .error ⟨.unsupportedDialect, bytes "document declares neither 'swagger' nor 'openapi'"⟩

/-- The schemas of the declared nodes. -/
def readSchemas : List (Bytes × Node) → Except Bytes (List NamedSchema)
  | [] => .ok []
  | (name, n) :: rest => do
    let schema ← Schema.ofNode (Schema.maxDepth + 1) name n
    let schemas ← readSchemas rest
    return ⟨name, schema⟩ :: schemas

def ofDocument (doc : Node) : Except Failure Index :=
  match doc with
  | .obj entries => do
    let (dialect, version, schemas) ← header (.obj entries)
    let named ← (readSchemas ((schemas.bind Node.entries?).getD [])).mapError fun detail =>
      ⟨.parseError, detail⟩
    return ⟨dialect, version, named⟩
  | _ => .error ⟨.parseError, bytes "document root must be a mapping"⟩

/-- Reads a document and indexes its schemas. -/
def read (t : Bytes) : Except Failure Index := do
  let doc ← (Document.read t).mapError fun detail => ⟨.parseError, detail⟩
  ofDocument doc

end Index

end HeaderForge
