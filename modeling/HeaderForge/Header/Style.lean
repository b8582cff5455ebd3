import HeaderForge.Header.Declarations
import HeaderForge.Header.Includes
import HeaderForge.Header.Record
import HeaderForge.Header.Runtime
/-!
# Styles of code

Three styles of the same classes. A style is chosen by its name; a list of styles holds no name
twice.
-/

namespace HeaderForge

inductive Style where
  | plain
  | reflective
  | builder
deriving DecidableEq, Repr

namespace Style

def name : Style → Bytes
  | plain => "plain"
  | reflective => "reflective"
  | builder => "builder"

def summary : Style → Bytes
  | plain => "aggregates with hand-written nlohmann::json to_json/from_json"
  | reflective => "aggregates with a static field table read by the shared runtime"
  | builder => "immutable classes with accessors and a nested builder"

/-- All styles in the order in which they are offered. -/
def all : List Style := [plain, reflective, builder]

/-- Adds a style to a list, in its place if it is there. -/
def add (styles : List Style) (s : Style) : List Style :=
  if s ∈ styles then styles else styles ++ [s]

def select (styles : List Style) (name : Bytes) : Except FailureKind Style :=
  match styles.find? fun s => s.name = name with
  | some s => .ok s
  | none => .error .unknownBackend

/-! ## What a style declares -/

/-- The includes of a class. What a style adds comes after what all styles need. -/
def includes (style : Style) (c : ClassModel) : List Bytes :=
  Header.baseIncludes c ++
    if !c.isRecord then []
    else
      match style with
      | plain => []
      | reflective =>
        [Header.systemInclude "tuple", Header.localInclude Header.runtimeHeaderName]
      | builder => [Header.systemInclude "utility"]

def annotations (style : Style) (ctx : RenderContext) (c : ClassModel) : List Bytes :=
  Header.annotations ctx c ++
    if style = builder && c.isRecord then
      [row ["// Immutable; modify through ", c.name, "::builder."]]
    else []

/-- The key that a forward declaration of a class needs. -/
def classKey (style : Style) (c : ClassModel) : Bytes :=
  if c.isRecord && style ≠ builder then "struct" else "class"

def record (style : Style) (ctx : RenderContext) (c : ClassModel) : List Bytes :=
  match style with
  | plain => Header.plainRecord ctx c
  | reflective => Header.reflectiveRecord ctx c
  | builder => Header.builderRecord ctx c

/-- The declaration of a class. A tagged union must know its variants. -/
def declare (style : Style) (ctx : RenderContext) (c : ClassModel) :
    Except FailureKind (List Bytes) :=
  match c.shape with
  | .record => .ok (style.record ctx c)
  | .enumeration definition => .ok (Header.enumeration ctx { definition with description := [] })
  | .aliasOf type => .ok (Header.aliasLines c type)
  | .dynamicWrapper => .ok (Header.wrapper c)
  | .taggedUnion =>
    match c.union with
    | some u => .ok (Header.taggedUnion c u)
    | none => .error .invalidUnion

/-- Whether a class converts by `decode` and `encode`, so that it has a serializer. -/
def hasSerializer (style : Style) (c : ClassModel) : Bool :=
  match c.shape with
  | .taggedUnion | .dynamicWrapper => true
  | .record => style = builder
  | .enumeration _ | .aliasOf _ => false

/-- What follows the namespace of a class. -/
def epilogue (style : Style) (ctx : RenderContext) (c : ClassModel) : List Bytes :=
  if style.hasSerializer c then Header.serializer ctx c else []

/-- Whether the known classes need the shared runtime. In the reflective style every record does. -/
def needsRuntime (style : Style) (ctx : RenderContext) : Bool :=
  Header.anyNeedsRuntime ctx || (style = reflective && ctx.classes.any ClassModel.isRecord)

/-- The shared runtime header, or nothing where no known class needs it. -/
def runtimeSupport (style : Style) (ctx : RenderContext) : List Bytes :=
  if style.needsRuntime ctx then Header.runtimeHeader (style = reflective) else []

end Style

end HeaderForge
