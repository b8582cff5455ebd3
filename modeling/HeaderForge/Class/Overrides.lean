import HeaderForge.Bytes.Sorted
import HeaderForge.Naming
/-!
# Overrides

What the configuration says about the classes of single schemas. Lists of pairs are kept in key
order.
-/

namespace HeaderForge

structure SchemaOverride where
  className : Option Bytes
  /-- From JSON keys to identifiers. -/
  fieldNames : List (Bytes × Bytes)
  /-- From `integer` or `string:date-time` to the type that is used for it. -/
  typeMapping : List (Bytes × Bytes)
  useJsonKey : Option Bool
deriving DecidableEq, Repr

def SchemaOverride.none : SchemaOverride := ⟨.none, [], [], .none⟩

/-- The settings that the classes of a document depend on. -/
structure ModelSettings where
  useJsonKey : Bool
  /-- From schema names to what is said about them. -/
  overrides : List (Bytes × SchemaOverride)
deriving DecidableEq, Repr

namespace ModelSettings

def override? (m : ModelSettings) (schemaName : Bytes) : Option SchemaOverride :=
  m.overrides.lookup schemaName

/-- The class name of a schema: the configured one, or its name in Pascal case. -/
def className (m : ModelSettings) (schemaName : Bytes) : Bytes :=
  ((m.override? schemaName).bind SchemaOverride.className).getD (Naming.pascalCase schemaName)

def usesJsonKey (m : ModelSettings) (schemaName : Bytes) : Bool :=
  ((m.override? schemaName).bind SchemaOverride.useJsonKey).getD m.useJsonKey

end ModelSettings

end HeaderForge
