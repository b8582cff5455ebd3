import HeaderForge.Bytes.Sorted
import HeaderForge.Header.Basic
/-!
# Includes

The library headers that a declaration needs, as `#include` lines in order and without repetition.

1. `typeIncludes` are those of a type.
2. `baseIncludes` are those of a class in every style.
3. `needsRuntime` says which classes rely on the shared runtime header.
-/

namespace HeaderForge

namespace Header

/-- The name of the header that generated classes share. -/
def runtimeHeaderName : Bytes := "schemagen_runtime.hpp"

def systemInclude (name : Bytes) : Bytes := row ["#include <", name, ">"]
def localInclude (file : Bytes) : Bytes := row ["#include \"", file, "\""]

def optionalInclude : Bytes := systemInclude "optional"

/-- The includes of a type without its arguments. -/
def kindIncludes (kind : TypeKind) (indirect : Bool) : List Bytes :=
  match kind with
  | .string => [systemInclude "string"]
  | .integer => [systemInclude "cstdint"]
  | .named => if indirect then [systemInclude "memory"] else []
  | .list => [systemInclude "vector"]
  | .map => [systemInclude "map", systemInclude "string"]
  | .number | .boolean | .any | .enumeration | .custom => []

mutual

/-- The includes of a type, with repetitions. -/
def plainIncludes : TypeRef → List Bytes
  | ⟨kind, _, indirect, args⟩ => kindIncludes kind indirect ++ allIncludes args

def allIncludes : List TypeRef → List Bytes
  | [] => []
  | t :: rest => plainIncludes t ++ allIncludes rest

end

/-- The includes of a type that may be absent. -/
def typeIncludes (t : TypeRef) (nullable : Bool) : List Bytes :=
  (if nullable && !t.holdsNothing then [optionalInclude] else []) ++ plainIncludes t

/-- Whether a class relies on the shared runtime: unions and wrappers throw its exceptions, and a
shared pointer is serialized by it. -/
def needsRuntime (c : ClassModel) : Bool :=
  match c.shape with
  | .taggedUnion | .dynamicWrapper => true
  | .record => c.fields.any fun f => f.type.holdsPointer
  | .aliasOf type => type.holdsPointer
  | .enumeration _ => false

/-- Whether any known class relies on the shared runtime. -/
def anyNeedsRuntime (ctx : RenderContext) : Bool := ctx.classes.any needsRuntime

def shapeIncludes (c : ClassModel) : List Bytes :=
  match c.shape with
  | .record => c.fields.flatMap fun f => typeIncludes f.type f.nullable
  | .aliasOf type => typeIncludes type false
  | .enumeration _ => [systemInclude "string_view"]
  | .taggedUnion =>
    [optionalInclude, systemInclude "string", systemInclude "utility"] ++
      if (c.union.map fun u => u.variants.any fun v => v.type.isPointer).getD false then
        [systemInclude "memory"]
      else []
  | .dynamicWrapper => [systemInclude "utility"]

/-- The includes of a class in every style. -/
def baseIncludes (c : ClassModel) : List Bytes :=
  Bytes.sortDistinct
    (systemInclude "nlohmann/json.hpp" :: shapeIncludes c ++
      (if c.inlineEnums.isEmpty then [] else [systemInclude "string_view"]) ++
      if needsRuntime c then [localInclude runtimeHeaderName] else [])

end Header

end HeaderForge
