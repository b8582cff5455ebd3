import HeaderForge.Build.Types
import HeaderForge.Build.UnionPlan
import HeaderForge.Class.Overrides
import HeaderForge.Class.Registry
/-!
# Building classes

Every named schema becomes a class. An object or a composition becomes a record, an enumeration an
enumeration, a union a tagged union or a dynamic wrapper, and everything else an alias.

1. `buildClass` builds the class of one schema.
2. `buildAll` checks all references and puts the classes of all schemas into a registry.
-/

namespace HeaderForge

namespace Build

/-! ## Records -/

def typeContext (index : Index) (settings : ModelSettings) (schemaName : Bytes) : TypeContext where
  index := index
  classNameOf := settings.className
  ownerSchema := schemaName
  ownerClass := settings.className schemaName
  overrides := ((settings.override? schemaName).map SchemaOverride.typeMapping).getD []

/-- The identifier of a field: the configured one, or its key in snake case. -/
def fieldName (o : Option SchemaOverride) (key : Bytes) : Bytes :=
  match o.bind fun o => o.fieldNames.lookup key with
  | some name => Naming.sanitize name
  | none => Naming.sanitize (Naming.snakeCase key)

/-- The fields of properties in the given order. -/
def fieldsOf (c : TypeContext) (o : Option SchemaOverride) (required : List Bytes) :
    List (Bytes × Schema) → Build (List Field)
  | [] => return []
  | (key, s) :: rest => do
    let type ← typeOf c key s
    let others ← fieldsOf c o required rest
    return {
      name := fieldName o key
      key := key
      type := type
      required := required.contains key
      nullable := s.info.nullable
      deprecated := s.info.deprecated
      description := s.info.description
      sample := s.info.sample } :: others

/-- The fields of a fragment in key order, so that the order of the document does not matter. -/
def readFragment (index : Index) (settings : ModelSettings) (schemaName : Bytes)
    (fragment : Fragment) : Build (List Field) :=
  fieldsOf (typeContext index settings schemaName) (settings.override? schemaName)
    fragment.required (Bytes.sortKeys fragment.properties)

/-- Gives fields whose identifier came before another one. -/
def distinctFields (schemaName : Bytes) : Naming.Taken → List Field → Build (List Field)
  | _, [] => return []
  | used, f :: rest => do
    let name := used.unused f.name
    if used.has f.name then
      warning (bytes "field_name_collision") schemaName
        (bytes "key '" ++ f.key ++ bytes "' renamed to " ++ name)
    return { f with name := name } :: (← distinctFields schemaName (used.take name) rest)

/-! ## Shapes -/

/-- A class as far as its schema alone decides it. -/
def outline (settings : ModelSettings) (s : NamedSchema) (shape : ClassShape) : ClassModel where
  name := settings.className s.name
  schemaName := s.name
  shape := shape
  description := s.schema.info.description
  deprecated := s.schema.info.deprecated
  useJsonKey := settings.usesJsonKey s.name
  fields := []
  union := none
  alternatives := []
  inlineEnums := []
  dependencies := []
  composedFrom := []

def buildAlias (index : Index) (settings : ModelSettings) (s : NamedSchema) : Build ClassModel := do
  let type ← typeOf (typeContext index settings s.name) (bytes "value") s.schema
  return outline settings s (.aliasOf type)

def buildRecord (index : Index) (settings : ModelSettings) (s : NamedSchema) :
    Build ClassModel := do
  let merged ← flatten index s.schema s.name (readFragment index settings s.name)
  return { outline settings s .record with
    fields := merged.fields
    composedFrom := merged.composedFrom.map fun a =>
      { a with className := settings.className a.schemaName } }

def buildEnumeration (settings : ModelSettings) (s : NamedSchema) (values : LiteralList) :
    ClassModel :=
  outline settings s
    (.enumeration
      ⟨settings.className s.name, s.schema.info.primitive, enumMembers values,
        s.schema.info.description⟩)

/-- The variant for a tag. -/
def unionVariant (index : Index) (settings : ModelSettings) (owner : Bytes) (others : List Bytes)
    (t : TaggedSchema) : UnionVariant where
  tag := t.tag
  schemaName := t.schemaName
  slot := Naming.sanitize (Naming.snakeCase t.schemaName)
  type := .named (settings.className t.schemaName) (index.closesCycle owner t.schemaName)
  tagIsString := !others.contains t.tag

/-- The dependencies on the classes of variants, each class once. -/
def variantDependencies : List UnionVariant → List Dependency → List Dependency
  | [], found => found
  | v :: rest, found =>
    if found.any fun d => d.className = v.type.name then variantDependencies rest found
    else variantDependencies rest (found ++ [⟨v.type.name, v.schemaName, v.type.isPointer⟩])

/-- A union whose alternatives are told apart becomes a tagged union, and any other one a dynamic
wrapper. -/
def buildUnion (index : Index) (settings : ModelSettings) (s : NamedSchema) (kind : UnionKind)
    (members : List Schema) (discriminator : Option Discriminator) : Build ClassModel := do
  let plan ← planUnion index s.name kind members discriminator
  let wrapper := { outline settings s .dynamicWrapper with alternatives := plan.alternatives }
  if plan.discriminated then
    let variants := plan.variants.map (unionVariant index settings s.name plan.otherTags)
    match UnionModel.make plan.tagProperty variants with
    | .ok model =>
      modify fun st => { st with dependencies := variantDependencies variants st.dependencies }
      return { wrapper with shape := .taggedUnion, union := some model }
    | .error kind =>
      warning (bytes "composition") s.name
        (bytes "alternatives cannot form a tagged union (" ++ kind.message ++
          bytes "); emitting a dynamic wrapper")
      return wrapper
  else return wrapper

/-- Whether a schema that an alias leads to is flattened into a record. -/
def becomesRecord : Schema → Bool
  | s@(.object _ _ _ _) => !s.isMapOnly
  | .allOf _ _ => true
  | _ => false

def buildReference (index : Index) (settings : ModelSettings) (s : NamedSchema) :
    Build ClassModel := do
  let target ← follow index s s.name
  if becomesRecord target.schema then
    detail (bytes "compose") (s.name ++ bytes ": alias of " ++ target.name ++ bytes " flattened")
    buildRecord index settings s
  else buildAlias index settings s

/-- The class of a schema that is open. -/
def buildShape (index : Index) (settings : ModelSettings) (s : NamedSchema) : Build ClassModel :=
  match s.schema with
  | .enumeration _ values => return buildEnumeration settings s values
  | .object _ _ _ _ | .allOf _ _ =>
    if becomesRecord s.schema then buildRecord index settings s else buildAlias index settings s
  | .reference _ _ => buildReference index settings s
  | .union _ kind members discriminator => buildUnion index settings s kind members discriminator
  | .array _ _ | .primitive _ => buildAlias index settings s

/-! ## Classes -/

def describeClass (c : ClassModel) : Bytes :=
  c.schemaName ++ bytes " -> " ++ c.name ++ bytes " (" ++ c.shape.text ++ bytes ", " ++
    natText c.fields.length ++ bytes " field(s))"

/-- The class of a named schema, with what it was found to need. -/
def buildClass (index : Index) (settings : ModelSettings) (s : NamedSchema) : Build ClassModel := do
  modify fun st => { st with dependencies := [], inlineEnums := [] }
  visiting s.name fun _ => do
    let c ← buildShape index settings s
    let st ← get
    let fields ← distinctFields s.name .none c.fields
    let c := { c with
      fields := fields
      inlineEnums := st.inlineEnums
      dependencies := st.dependencies }
    detail (bytes "model") (describeClass c)
    return c

/-- Puts a class into the registry and reports one that it supersedes. -/
def register (c : ClassModel) : Build Unit := do
  if (← get).registry.supersedes c then
    warning (bytes "class_name_collision") c.schemaName
      (bytes "class " ++ c.name ++ bytes " supersedes an earlier schema with the same class name")
  modify fun st => { st with registry := st.registry.put c }

def buildEach (index : Index) (settings : ModelSettings) : List NamedSchema → Build Unit
  | [] => return
  | s :: rest => do
    register (← buildClass index settings s)
    buildEach index settings rest

/-- Registers the classes of all schemas, once every reference resolves. -/
def buildAll (index : Index) (settings : ModelSettings) : Build Unit := do
  checkAll index
  buildEach index settings index.named

end Build

end HeaderForge
