import HeaderForge.Class.Basic
/-!
# The registry of classes

Classes in the order in which their names first came. A class that comes under a name that is taken
supersedes the earlier one in its slot, and the schema of the earlier one, if it is another, has no
class any more. Two tables lead to the slots: from class names, and from schema names.
-/

namespace HeaderForge

structure Registry where
  /-- The slots. -/
  classes : List ClassModel
  /-- From class names to slots. -/
  byName : List (Bytes × Nat)
  /-- From schema names to slots. -/
  bySchema : List (Bytes × Nat)
deriving Repr

namespace Registry

def empty : Registry := ⟨[], [], []⟩

def find? (r : Registry) (className : Bytes) : Option ClassModel :=
  (r.byName.lookup className).bind fun slot => r.classes[slot]?

def findSchema? (r : Registry) (schemaName : Bytes) : Option ClassModel :=
  (r.bySchema.lookup schemaName).bind fun slot => r.classes[slot]?

/-- Sets the slot of a name, in the place of the one that it had. -/
def assign (name : Bytes) (slot : Nat) (table : List (Bytes × Nat)) : List (Bytes × Nat) :=
  (name, slot) :: table.filter fun entry => entry.1 ≠ name

/-- Whether putting a class supersedes another one. -/
def supersedes (r : Registry) (c : ClassModel) : Bool := (r.byName.lookup c.name).isSome

/-- The slots of schemas once a class comes into a slot. The schema whose class was there loses it,
unless the class that comes is of the same schema. -/
def released (r : Registry) (slot : Nat) (c : ClassModel) : List (Bytes × Nat) :=
  match r.classes[slot]? with
  | some earlier =>
    if earlier.schemaName ≠ c.schemaName then
      r.bySchema.filter fun entry => entry.1 ≠ earlier.schemaName
    else r.bySchema
  | none => r.bySchema

/-- Puts a class into the slot of the one with its name, or into a new one at the end. -/
def put (r : Registry) (c : ClassModel) : Registry :=
  match r.byName.lookup c.name with
  | none =>
    let slot := r.classes.length
    ⟨r.classes ++ [c], (c.name, slot) :: r.byName, assign c.schemaName slot r.bySchema⟩
  | some slot =>
    ⟨r.classes.set slot c, r.byName, assign c.schemaName slot (r.released slot c)⟩

end Registry

end HeaderForge
