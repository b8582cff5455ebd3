import HeaderForge.Build.Composition
/-!
# Planning unions

The alternatives of a union can be told apart when all of them are named and each has a tag. A tag
comes from the mapping of the discriminator, else from the only literal of the tag property in the
alternative, else, where a discriminator names the property, from the name of the schema. Without a
discriminator the first property that has one literal in every alternative is the tag property.

A plan is filled in on the way. Where it turns out that the alternatives cannot be told apart, what
was filled in is cleared, and the plan says why.
-/

namespace HeaderForge

/-- Why the alternatives of a union are not told apart. -/
inductive FallbackReason where
  | noAlternatives
  | inlineAlternatives
  | noDiscriminator
  | ambiguousDiscriminator
deriving DecidableEq, Repr

namespace FallbackReason

def text : FallbackReason → Bytes
  | noAlternatives => bytes "no alternatives"
  | inlineAlternatives => bytes "inline alternatives"
  | noDiscriminator => bytes "no discriminator"
  | ambiguousDiscriminator => bytes "ambiguous discriminator"

end FallbackReason

/-- The tag that selects a schema. -/
structure TaggedSchema where
  tag : Bytes
  schemaName : Bytes
  /-- Whether the tag was read from a literal that is not a string. -/
  fromOther : Bool
deriving DecidableEq, Repr

/-- How the alternatives of a union are told apart. -/
structure Tagging where
  property : Bytes
  variants : List TaggedSchema
deriving DecidableEq, Repr

namespace Tagging

/-- The tags that stand for numbers or truth values, in order. -/
def otherTags (t : Tagging) : List Bytes :=
  Bytes.sortDistinct ((t.variants.filter TaggedSchema.fromOther).map TaggedSchema.tag)

end Tagging

structure UnionPlan where
  /-- Whether the alternatives are told apart. -/
  discriminated : Bool
  tagProperty : Bytes
  /-- The tags with the schemas that they select. -/
  variants : List TaggedSchema
  /-- The tags that stand for numbers or truth values. -/
  otherTags : List Bytes
  /-- How the alternatives are called, one entry for each. -/
  alternatives : List Bytes
  /-- Why the alternatives are not told apart. -/
  fallback : Option FallbackReason
deriving DecidableEq, Repr

namespace UnionPlan

/-- A plan that only knows the alternatives. -/
def begun (alternatives : List Bytes) : UnionPlan := ⟨false, [], [], [], alternatives, none⟩

/-- Fills in how the alternatives may be told apart. -/
def fillIn (plan : UnionPlan) (t : Tagging) : UnionPlan :=
  { plan with tagProperty := t.property, variants := t.variants, otherTags := t.otherTags }

/-- Clears what was filled in. -/
def fallBack (plan : UnionPlan) (reason : FallbackReason) : UnionPlan :=
  { plan with
    discriminated := false, tagProperty := [], variants := [], otherTags := [],
    fallback := some reason }

/-- How the alternatives are told apart, or why they are not. -/
def tagging (plan : UnionPlan) : Except FallbackReason Tagging :=
  match plan.fallback with
  | some reason => .error reason
  | none => .ok ⟨plan.tagProperty, plan.variants⟩

/-- The text of the reason, which is empty where there is none. -/
def fallbackReason (plan : UnionPlan) : Bytes :=
  match plan.fallback with
  | some reason => reason.text
  | none => []

end UnionPlan

def UnionKind.text : UnionKind → Bytes
  | .oneOf => bytes "oneOf"
  | .anyOf => bytes "anyOf"

namespace Build

/-- An alternative of a union: a named schema, or the description of another one. -/
abbrev Alternative := Except Bytes NamedSchema

def Alternative.label : Alternative → Bytes
  | .ok s => s.name
  | .error description => description

/-- The alternatives, whose references must resolve. -/
def alternatives (index : Index) (owner : Bytes) : List Schema → Build (List Alternative)
  | [] => return []
  | .reference _ token :: rest => do
    let target ← resolve index token owner
    return .ok target :: (← alternatives index owner rest)
  | s :: rest => return .error s.describe :: (← alternatives index owner rest)

/-- The alternatives as named schemas, if all of them are. -/
def allNamed? : List Alternative → Option (List NamedSchema)
  | [] => some []
  | .ok s :: rest => (allNamed? rest).map (s :: ·)
  | .error _ :: _ => none

/-- The literal of a property that admits only one. -/
def singleLiteral (index : Index) (variant : NamedSchema) (key owner : Bytes) :
    Build (Option Literal) := do
  match ← findProperty index variant key owner with
  | none => return none
  | some property =>
    let target ← follow index ⟨[], property⟩ owner
    match target.schema with
    | .enumeration _ ⟨[literal], _, _⟩ => return some literal
    | _ => return none

/-- The tags that a mapping gives. -/
def mappedTags (index : Index) (owner : Bytes) : List (Bytes × Bytes) → Build (List TaggedSchema)
  | [] => return []
  | (tag, token) :: rest => do
    let target ← resolve index token owner
    return ⟨tag, target.name, false⟩ :: (← mappedTags index owner rest)

/-- The tags of the variants that a mapping leaves out. -/
def unmappedTags (index : Index) (owner property : Bytes) (mapped : List Bytes) :
    List NamedSchema → Build (List TaggedSchema)
  | [] => return []
  | v :: rest => do
    if v.name ∈ mapped then unmappedTags index owner property mapped rest
    else
      let tagged : TaggedSchema :=
        match ← singleLiteral index v property owner with
        | some literal => ⟨literal.value, v.name, !literal.isString⟩
        | none => ⟨v.name, v.name, false⟩
      return tagged :: (← unmappedTags index owner property mapped rest)

/-- The tags that a property gives when it has one literal in every variant. -/
def literalTags (index : Index) (owner key : Bytes) :
    List NamedSchema → Build (Option (List TaggedSchema))
  | [] => return some []
  | v :: rest => do
    match ← singleLiteral index v key owner with
    | none => return none
    | some literal =>
      let tagged : TaggedSchema := ⟨literal.value, v.name, !literal.isString⟩
      return (← literalTags index owner key rest).map (tagged :: ·)

/-- The first of the keys that tells the variants apart by literals. -/
def implicitTagging (index : Index) (owner : Bytes) (variants : List NamedSchema) :
    List Bytes → Build (Option Tagging)
  | [] => return none
  | key :: rest => do
    match ← literalTags index owner key variants with
    | some tags => return some ⟨key, tags⟩
    | none => implicitTagging index owner variants rest

/-- How the variants are told apart, if they can be. -/
def findTagging (index : Index) (owner : Bytes) (discriminator : Option Discriminator)
    (variants : List NamedSchema) : Build (Option Tagging) := do
  match discriminator, variants with
  | some d, _ =>
    let mapped ← mappedTags index owner d.mapping
    let others ←
      unmappedTags index owner d.property (mapped.map TaggedSchema.schemaName) variants
    return some ⟨d.property, mapped ++ others⟩
  | none, [] => return none
  | none, first :: _ =>
    let keys ← propertyKeys index first owner
    implicitTagging index owner variants keys

/-- The first tag that selects more than one alternative. -/
def repeatedTag? : (earlier : List Bytes) → List TaggedSchema → Option Bytes
  | _, [] => none
  | earlier, v :: rest =>
    if v.tag ∈ earlier then some v.tag else repeatedTag? (v.tag :: earlier) rest

/-- Keeps a union as a dynamic wrapper. -/
def fallBack (owner label : Bytes) (plan : UnionPlan) (reason : FallbackReason) :
    Build UnionPlan := do
  composing owner (label ++ bytes " kept as a dynamic wrapper (" ++ reason.text ++ bytes ")")
  return plan.fallBack reason

/-- The alternatives are told apart by what was filled in, if each tag selects one of them only. -/
def settle (owner label : Bytes) (plan : UnionPlan) : Build UnionPlan := do
  match repeatedTag? [] plan.variants with
  | some tag =>
    warning (bytes "composition") owner
      (bytes "discriminator value '" ++ tag ++ bytes "' selects more than one alternative")
    fallBack owner label plan .ambiguousDiscriminator
  | none =>
    composing owner
      (label ++ bytes " over " ++ natText plan.variants.length ++
        bytes " variant(s) discriminated by '" ++ plan.tagProperty ++ bytes "'")
    return { plan with discriminated := true }

def planUnion (index : Index) (owner : Bytes) (kind : UnionKind) (members : List Schema)
    (discriminator : Option Discriminator) : Build UnionPlan := do
  let found ← alternatives index owner members
  let plan := UnionPlan.begun (found.map Alternative.label)
  match allNamed? found with
  | none =>
    if discriminator.isSome then
      warning (bytes "composition") owner
        (bytes "discriminator ignored: " ++ kind.text ++ bytes " has inline alternatives")
    fallBack owner kind.text plan .inlineAlternatives
  | some [] => fallBack owner kind.text plan .noAlternatives
  | some variants =>
    match ← findTagging index owner discriminator variants with
    | none => fallBack owner kind.text plan .noDiscriminator
    | some t => settle owner kind.text (plan.fillIn t)

end Build

end HeaderForge
