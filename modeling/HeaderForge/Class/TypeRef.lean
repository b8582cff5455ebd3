import HeaderForge.Bytes
/-!
# Types of generated code

The types that fields and aliases of generated classes may have, and how they are spelled.

1. `TypeRef.string`, `TypeRef.named`, `TypeRef.list`, … are the types that classes are built with.
2. `TypeRef.spell` and `TypeRef.spellNullable` are the C++ spellings.
-/

namespace HeaderForge

inductive TypeKind where
  | string
  | integer
  | number
  | boolean
  | any
  /-- A generated class. -/
  | named
  | enumeration
  /-- A type that the configuration names. -/
  | custom
  | list
  | map
deriving DecidableEq, Repr, Inhabited

namespace TypeKind

def all : List TypeKind :=
  [string, integer, number, boolean, any, named, enumeration, custom, list, map]

def text : TypeKind → Bytes
  | string => bytes "string"
  | integer => bytes "integer"
  | number => bytes "number"
  | boolean => bytes "boolean"
  | any => bytes "any"
  | named => bytes "named"
  | enumeration => bytes "enumeration"
  | custom => bytes "custom"
  | list => bytes "list"
  | map => bytes "map"

end TypeKind

/-- A type. What its kind has no use for does not show in its spelling. -/
structure TypeRef where
  kind : TypeKind
  /-- The name of a class, an enumeration or a configured type. -/
  name : Bytes
  /-- Whether a class is held by a shared pointer, as it is where the reference closes a cycle. -/
  indirect : Bool
  /-- The element of a list, or the value of a map. Only the first argument counts as that. -/
  args : List TypeRef
deriving Repr, Inhabited

namespace TypeRef

/-! ## Equality -/

mutual

/-- Types are compared part by part. -/
def decEq : (a b : TypeRef) → Decidable (a = b)
  | ⟨k, n, i, as⟩, ⟨k', n', i', as'⟩ =>
    match decEqAll as as' with
    | .isTrue same => decidable_of_iff (k = k' ∧ n = n' ∧ i = i') (by simp [same])
    | .isFalse different => .isFalse (by simp [different])

def decEqAll : (as bs : List TypeRef) → Decidable (as = bs)
  | [], [] => .isTrue rfl
  | [], _ :: _ => .isFalse (by simp)
  | _ :: _, [] => .isFalse (by simp)
  | a :: as, b :: bs =>
    match decEq a b with
    | .isTrue same =>
      match decEqAll as bs with
      | .isTrue rest => .isTrue (by simp [same, rest])
      | .isFalse different => .isFalse (by simp [different])
    | .isFalse different => .isFalse (by simp [different])

end

instance : DecidableEq TypeRef := decEq

/-! ## Types by kind -/

/-- A type that is nothing but its kind. -/
def plain (kind : TypeKind) : TypeRef := ⟨kind, [], false, []⟩

def string : TypeRef := plain .string
def integer : TypeRef := plain .integer
def number : TypeRef := plain .number
def boolean : TypeRef := plain .boolean
def any : TypeRef := plain .any
def named (name : Bytes) (indirect : Bool) : TypeRef := ⟨.named, name, indirect, []⟩
def enumeration (name : Bytes) : TypeRef := ⟨.enumeration, name, false, []⟩
def custom (name : Bytes) : TypeRef := ⟨.custom, name, false, []⟩
def list (element : TypeRef) : TypeRef := ⟨.list, [], false, [element]⟩
def map (value : TypeRef) : TypeRef := ⟨.map, [], false, [value]⟩

def isPrimitive (t : TypeRef) : Bool :=
  match t.kind with
  | .string | .integer | .number | .boolean => true
  | _ => false

/-- Whether a type is a class that is held by a shared pointer. -/
def isPointer (t : TypeRef) : Bool :=
  match t.kind with
  | .named => t.indirect
  | _ => false

mutual

/-- Whether a shared pointer occurs anywhere in a type. -/
def holdsPointer : TypeRef → Bool
  | ⟨kind, name, indirect, args⟩ => isPointer ⟨kind, name, indirect, []⟩ || anyHoldsPointer args

def anyHoldsPointer : List TypeRef → Bool
  | [] => false
  | t :: rest => holdsPointer t || anyHoldsPointer rest

end

/-! ## Spelling -/

/-- The C++ spelling. A list or map of nothing in particular holds JSON values. -/
def spell : TypeRef → Bytes
  | ⟨.string, _, _, _⟩ => bytes "std::string"
  | ⟨.integer, _, _, _⟩ => bytes "std::int64_t"
  | ⟨.number, _, _, _⟩ => bytes "double"
  | ⟨.boolean, _, _, _⟩ => bytes "bool"
  | ⟨.any, _, _, _⟩ => bytes "nlohmann::json"
  | ⟨.named, name, indirect, _⟩ =>
    if indirect then bytes "std::shared_ptr<" ++ name ++ bytes ">" else name
  | ⟨.enumeration, name, _, _⟩ | ⟨.custom, name, _, _⟩ => name
  | ⟨.list, _, _, []⟩ => bytes "std::vector<nlohmann::json>"
  | ⟨.list, _, _, element :: _⟩ => bytes "std::vector<" ++ spell element ++ bytes ">"
  | ⟨.map, _, _, []⟩ => bytes "std::map<std::string, nlohmann::json>"
  | ⟨.map, _, _, value :: _⟩ => bytes "std::map<std::string, " ++ spell value ++ bytes ">"

/-- Whether the type has an empty state of its own: a shared pointer may be empty, and a JSON value
may hold null. -/
def holdsNothing (t : TypeRef) : Bool := t.isPointer || t.kind = .any

/-- The spelling of a type that may be absent. -/
def spellNullable (t : TypeRef) (nullable : Bool) : Bytes :=
  if nullable && !t.holdsNothing then bytes "std::optional<" ++ t.spell ++ bytes ">" else t.spell

end TypeRef

end HeaderForge
