import HeaderForge.Class.Registry
import HeaderForge.Naming
/-!
# Headers: settings and comments

What all styles of code share about the place that a class is declared in, and the comments above a
declaration. Every piece of code is a list of lines before it is a text.
-/

namespace HeaderForge

/-- Where and how a class is declared. -/
structure RenderContext where
  targetNamespace : Bytes
  generateDocs : Bool
  /-- The classes that are known, if any are. -/
  registry : Option Registry

namespace RenderContext

def find? (ctx : RenderContext) (className : Bytes) : Option ClassModel :=
  ctx.registry.bind fun r => r.find? className

def classes (ctx : RenderContext) : List ClassModel :=
  match ctx.registry with
  | some r => r.classes
  | none => []

/-- The name of a class outside the namespace. -/
def qualified (ctx : RenderContext) (className : Bytes) : Bytes :=
  if ctx.targetNamespace.isEmpty then className else row [ctx.targetNamespace, "::", className]

end RenderContext

namespace Header

/-- Lines of code. -/
def block (lines : List Bytes) : List Bytes := lines

/-! ## Comments -/

/-- A line of documentation without the blanks at its end. -/
def docLine (indent line : Bytes) : Bytes :=
  let kept := dropEndWhile (fun b => b == byte ' ' || b == byte '\r') line
  if kept.isEmpty then row [indent, "///"] else row [indent, "/// ", kept]

/-- A documentation comment for a text, without empty lines at its end. -/
def docComment (text indent : Bytes) : List Bytes :=
  dropEndWhile (· == row [indent, "///"]) ((Bytes.splitAll (byte '\n') text).map (docLine indent))

/-- The documentation of a text where it is asked for and there is any. -/
def docsFor (ctx : RenderContext) (text indent : Bytes) : List Bytes :=
  if ctx.generateDocs && !text.isEmpty then docComment text indent else []

/-- Names one after the other; the first name that is not empty starts the enumeration. -/
def enumerate (names : List Bytes) : Bytes :=
  names.foldl (fun text name => if text.isEmpty then name else row [text, ", ", name]) []

def compositionComment (ancestors : List Ancestor) : List Bytes :=
  if ancestors.isEmpty then []
  else
    let flattened := enumerate ((ancestors.filter fun a => !a.reused).map Ancestor.className)
    let reused := enumerate ((ancestors.filter Ancestor.reused).map Ancestor.className)
    [row ["// Composed from ", if flattened.isEmpty then "(none)" else flattened,
      if reused.isEmpty then [] else row [" (reused by name: ", reused, ")"], "."]]

def alternativesComment (c : ClassModel) : List Bytes :=
  if c.shape = .dynamicWrapper && !c.alternatives.isEmpty then
    [row ["// Any of: ", Bytes.join ", " c.alternatives, "."]]
  else []

/-- The comments above a declaration in every style. -/
def annotations (ctx : RenderContext) (c : ClassModel) : List Bytes :=
  docsFor ctx c.description [] ++ compositionComment c.composedFrom ++ alternativesComment c ++
    if c.deprecated then [bytes "// Deprecated."] else []

end Header

end HeaderForge
