import HeaderForge.Bytes.KeySet
import HeaderForge.Class.TypeRef
import HeaderForge.Failure
import HeaderForge.Schema.Basic
/-!
# Generated classes

What the header of a schema declares, before any style of code is chosen.

1. `UnionModel.make` admits only unions whose variants can be told apart.
2. `VariantDispatch` is a union with handlers, of which none is missing.
3. `ClassModel` is a class; its `shape` says what kind of declaration it becomes.
-/

namespace HeaderForge

structure Field where
  /-- The identifier in generated code. -/
  name : Bytes
  /-- The key in JSON. -/
  key : Bytes
  type : TypeRef
  required : Bool
  nullable : Bool
  deprecated : Bool
  description : Bytes
  sample : Bytes
deriving DecidableEq, Repr

structure EnumMember where
  name : Bytes
  literal : Bytes
  isString : Bool
deriving DecidableEq, Repr

structure EnumDef where
  name : Bytes
  base : Primitive
  members : List EnumMember
  description : Bytes
deriving DecidableEq, Repr

/-- A class that a class mentions. -/
structure Dependency where
  className : Bytes
  schemaName : Bytes
  indirect : Bool
deriving DecidableEq, Repr

/-- A schema that a record is composed of. One that was still being expanded when it was met again
is reused by its name only. -/
structure Ancestor where
  schemaName : Bytes
  className : Bytes
  reused : Bool
deriving DecidableEq, Repr

/-! ## Unions -/

structure UnionVariant where
  tag : Bytes
  schemaName : Bytes
  /-- The identifier of the slot that holds the variant. -/
  slot : Bytes
  type : TypeRef
  /-- Whether the tag is a string in JSON, or a number or truth value. -/
  tagIsString : Bool
deriving DecidableEq, Repr

structure UnionModel where
  tagProperty : Bytes
  variants : List UnionVariant
deriving DecidableEq, Repr

namespace UnionModel

/-- Whether no tag and no slot comes again, neither among these variants nor among those that came
before. -/
def distinct (tags slots : KeySet) : List UnionVariant → Bool
  | [] => true
  | v :: rest =>
    !tags.contains v.tag && !slots.contains v.slot &&
      distinct (tags.insert v.tag) (slots.insert v.slot) rest

/-- A union needs a tag property, a variant, and tags and slots that are all different. -/
def make (tagProperty : Bytes) (variants : List UnionVariant) : Except FailureKind UnionModel :=
  if tagProperty.isEmpty || variants.isEmpty then .error .invalidUnion
  else if distinct .empty .empty variants then .ok ⟨tagProperty, variants⟩
  else .error .invalidUnion

def findTag? (model : UnionModel) (tag : Bytes) : Option UnionVariant :=
  model.variants.find? fun v => v.tag = tag

end UnionModel

/-- What is done for variants, by their tags. There may be something for tags that no variant has. -/
abbrev Handlers (α : Type) := Bytes → Option (UnionVariant → α)

/-- What a table has for tags. An entry may be empty, which is as if there were none. -/
def Handlers.ofTable {α : Type} (table : List (Bytes × Option (UnionVariant → α))) : Handlers α :=
  fun tag => (table.lookup tag).join

/-- A union and what is done for its variants. None of them is left without a handler. -/
structure VariantDispatch (α : Type) where
  model : UnionModel
  handlers : Handlers α
  complete : ∀ v, v ∈ model.variants → (handlers v.tag).isSome

namespace VariantDispatch

/-- Looks for the handler of each variant's tag; none may be missing. -/
def make {α : Type} (model : UnionModel) (handlers : Handlers α) :
    Except FailureKind (VariantDispatch α) :=
  if complete : ∀ v, v ∈ model.variants → (handlers v.tag).isSome then
    .ok ⟨model, handlers, complete⟩
  else .error .missingVariantHandler

/-- What the handler for the tag of a variant makes of it. -/
def call {α : Type} (d : VariantDispatch α) (v : UnionVariant) (member : v ∈ d.model.variants) :
    α :=
  (d.handlers v.tag).get (d.complete v member) v

/-- What the handler of the variant with a tag makes of it. -/
def run {α : Type} (d : VariantDispatch α) (tag : Bytes) : Except FailureKind α :=
  match found : d.model.findTag? tag with
  | some v => .ok (d.call v (List.mem_of_find?_eq_some found))
  | none => .error .invalidUnion

/-- Every variant in order with what its handler makes of it. -/
def results {α : Type} (d : VariantDispatch α) : List (UnionVariant × α) :=
  d.model.variants.attach.map fun ⟨v, member⟩ => (v, d.call v member)

end VariantDispatch

/-! ## Classes -/

inductive ClassShape where
  | record
  | enumeration (definition : EnumDef)
  | aliasOf (type : TypeRef)
  | dynamicWrapper
  | taggedUnion
deriving DecidableEq, Repr

namespace ClassShape

def text : ClassShape → Bytes
  | record => bytes "record"
  | enumeration _ => bytes "enumeration"
  | aliasOf _ => bytes "alias"
  | dynamicWrapper => bytes "dynamic wrapper"
  | taggedUnion => bytes "tagged union"

end ClassShape

structure ClassModel where
  name : Bytes
  schemaName : Bytes
  shape : ClassShape
  description : Bytes
  deprecated : Bool
  /-- Whether the keys are constants of the class instead of literals. -/
  useJsonKey : Bool
  /-- The members of a record. -/
  fields : List Field
  /-- The variants of a tagged union. -/
  union : Option UnionModel
  /-- How the alternatives of a union are called in its comment. -/
  alternatives : List Bytes
  inlineEnums : List EnumDef
  dependencies : List Dependency
  composedFrom : List Ancestor
deriving DecidableEq, Repr

namespace ClassModel

def findField? (c : ClassModel) (key : Bytes) : Option Field := c.fields.find? fun f => f.key = key

def hasIndirectDependency (c : ClassModel) : Bool := c.dependencies.any Dependency.indirect

def isRecord (c : ClassModel) : Bool := c.shape = .record

end ClassModel

end HeaderForge
