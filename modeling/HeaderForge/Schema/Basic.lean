import HeaderForge.Document.Node
/-!
# Schemas

A schema of an API description, whatever dialect it was written in. What a schema may hold depends
on its form; what every form has is its `SchemaInfo`.
-/

namespace HeaderForge

inductive Primitive where
  | string
  | integer
  | number
  | boolean
  | any
deriving DecidableEq, Repr

namespace Primitive

def text : Primitive → Bytes
  | string => bytes "string"
  | integer => bytes "integer"
  | number => bytes "number"
  | boolean => bytes "boolean"
  | any => bytes "any"

/-- The primitive that a type keyword names. No keyword names `any`. -/
def ofKeyword? (t : Bytes) : Option Primitive :=
  if t = bytes "string" then some string
  else if t = bytes "integer" then some integer
  else if t = bytes "number" then some number
  else if t = bytes "boolean" then some boolean
  else none

end Primitive

/-- A value of an enumeration, and whether the document writes it as a string. -/
structure Literal where
  value : Bytes
  isString : Bool
deriving DecidableEq, Repr

/-- The values of an enumeration, with the two lists of names that may go with them. -/
structure LiteralList where
  literals : List Literal
  enumNames : List Bytes
  varNames : List Bytes
deriving DecidableEq, Repr

/-- How the variants of a union are told apart: by the value of a property. The mapping leads from
tags to references, in source order. -/
structure Discriminator where
  property : Bytes
  mapping : List (Bytes × Bytes)
deriving DecidableEq, Repr

inductive UnionKind where
  | oneOf
  | anyOf
deriving DecidableEq, Repr

/-- What every schema has. -/
structure SchemaInfo where
  primitive : Primitive
  format : Bytes
  description : Bytes
  sample : Bytes
  nullable : Bool
  deprecated : Bool
  hasType : Bool
  /-- The part of the document that the schema was read from. -/
  source : Node
deriving Repr

/-- What an object may hold beside its properties. -/
inductive Extra (α : Type) where
  | closed
  | anything
  | each (type : α)
deriving Repr

inductive Schema where
  | primitive (info : SchemaInfo)
  | enumeration (info : SchemaInfo) (values : LiteralList)
  | reference (info : SchemaInfo) (token : Bytes)
  | array (info : SchemaInfo) (items : Option Schema)
  | object (info : SchemaInfo) (properties : List (Bytes × Schema)) (required : List Bytes)
      (extra : Extra Schema)
  | allOf (info : SchemaInfo) (members : List Schema)
  | union (info : SchemaInfo) (kind : UnionKind) (members : List Schema)
      (discriminator : Option Discriminator)
deriving Repr

namespace Schema

def info : Schema → SchemaInfo
  | primitive info | enumeration info _ | reference info _ | array info _ | object info _ _ _
  | allOf info _ | union info _ _ _ => info

def kindText : Schema → Bytes
  | primitive _ => bytes "primitive"
  | enumeration _ _ => bytes "enum"
  | reference _ _ => bytes "reference"
  | array _ _ => bytes "array"
  | object _ _ _ _ => bytes "object"
  | allOf _ _ => bytes "allOf"
  | union _ .oneOf _ _ => bytes "oneOf"
  | union _ .anyOf _ _ => bytes "anyOf"

def isReference : Schema → Bool
  | reference _ _ => true
  | _ => false

/-- The token of a reference. -/
def token? : Schema → Option Bytes
  | reference _ token => some token
  | _ => none

/-- An object that has no properties of its own but admits others. -/
def isMapOnly : Schema → Bool
  | object _ [] _ .anything | object _ [] _ (.each _) => true
  | _ => false

/-- An object that has neither properties nor admits any. -/
def isEmptyObject : Schema → Bool
  | object _ [] _ .closed => true
  | _ => false

end Schema

/-- A schema of the index under the name it is declared with. -/
structure NamedSchema where
  name : Bytes
  schema : Schema
deriving Repr

end HeaderForge
