import HeaderForge.Class.Basic
/-!
# Merging fields

A composed record gathers the fields of its fragments. A field whose key came before stays where it
is and takes the later type and flags; it is required if any fragment requires it, and a later text
replaces an earlier one unless it is empty.
-/

namespace HeaderForge

namespace Field

/-- A later text unless it is empty. -/
def laterText (earlier later : Bytes) : Bytes := if later.isEmpty then earlier else later

/-- A field overridden by a later one with the same key. -/
def overriddenBy (earlier later : Field) : Field :=
  { earlier with
    type := later.type
    nullable := later.nullable
    required := earlier.required || later.required
    deprecated := later.deprecated
    description := laterText earlier.description later.description
    sample := laterText earlier.sample later.sample }

/-- Adds one field to those that came before. -/
def mergeOne (later : Field) : List Field → List Field
  | [] => [later]
  | f :: rest =>
    if f.key = later.key then f.overriddenBy later :: rest else f :: mergeOne later rest

/-- Adds the fields of a fragment to those that came before. -/
def merge (earlier later : List Field) : List Field :=
  later.foldl (fun fields f => mergeOne f fields) earlier

end Field

end HeaderForge
