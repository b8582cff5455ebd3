import HeaderForge.Header.Style
/-!
# Composing headers

The generated part of a header: the includes; inside the namespace the forward declarations, inline
enumerations, comments and the class; after it what the class adds there.

A class that is held indirectly is declared before and included after the namespace, where that is
possible; aliases and enumerations cannot be declared ahead, so they are included up front.
-/

namespace HeaderForge

namespace Header

/-! ## Dependencies -/

/-- Whether a class can be declared ahead of its definition. -/
def isDeclarable (c : ClassModel) : Bool :=
  match c.shape with
  | .record | .taggedUnion | .dynamicWrapper => true
  | .enumeration _ | .aliasOf _ => false

/-- The forward declaration that stands for a dependency, where one can. -/
def forwardDeclaration? (style : Style) (ctx : RenderContext) (d : Dependency) : Option Bytes :=
  match ctx.find? d.className with
  | some target =>
    if d.indirect && isDeclarable target then
      some (row [style.classKey target, " ", d.className, ";"])
    else none
  | none => none

def dependencyInclude (d : Dependency) : Bytes := localInclude (Naming.headerFileName d.schemaName)

/-- The dependencies of a class on others. -/
def otherDependencies (c : ClassModel) : List Dependency :=
  c.dependencies.filter fun d => d.schemaName ≠ c.schemaName

/-- The forward declarations in the order of the dependencies, each once. -/
def forwardDeclarations (style : Style) (ctx : RenderContext) (c : ClassModel) : List Bytes :=
  ((otherDependencies c).filterMap (forwardDeclaration? style ctx)).eraseDups

/-- The includes after the namespace. -/
def trailingIncludes (style : Style) (ctx : RenderContext) (c : ClassModel) : List Bytes :=
  Bytes.sortDistinct
    (((otherDependencies c).filter fun d => (forwardDeclaration? style ctx d).isSome).map
      dependencyInclude)

/-- The includes of other generated headers up front: all that do not come after the namespace. -/
def leadingIncludes (style : Style) (ctx : RenderContext) (c : ClassModel) : List Bytes :=
  (Bytes.sortDistinct
    (((otherDependencies c).filter fun d => (forwardDeclaration? style ctx d).isNone).map
      dependencyInclude)).filter fun file => file ∉ trailingIncludes style ctx c

/-! ## The whole -/

/-- Lines after an empty one, where there are any. -/
def after (lines : List Bytes) : List Bytes := if lines.isEmpty then [] else [] :: lines

def openNamespace (ctx : RenderContext) : List Bytes :=
  if ctx.targetNamespace.isEmpty then []
  else block [row ["namespace ", ctx.targetNamespace, " \x7b"], []]

def closeNamespace (ctx : RenderContext) : List Bytes :=
  if ctx.targetNamespace.isEmpty then []
  else block [[], row ["\x7d // namespace ", ctx.targetNamespace]]

/-- The lines of the header of a class around its declaration. -/
def around (style : Style) (ctx : RenderContext) (c : ClassModel) (declaration : List Bytes) :
    List Bytes :=
  block ["#pragma once", []] ++ Bytes.sortDistinct (style.includes c) ++
    after (leadingIncludes style ctx c) ++ [[]] ++ openNamespace ctx ++
    spaced (forwardDeclarations style ctx c) ++
    c.inlineEnums.flatMap (fun e => enumeration ctx e ++ [[]]) ++
    style.annotations ctx c ++ declaration ++ closeNamespace ctx ++
    after (style.epilogue ctx c) ++ after (trailingIncludes style ctx c)

/-- The generated part of the header of a class. -/
def compose (style : Style) (ctx : RenderContext) (c : ClassModel) : Except FailureKind Bytes := do
  let declaration ← style.declare ctx c
  return Bytes.unlines (around style ctx c declaration)

end Header

end HeaderForge
