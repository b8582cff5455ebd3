import HeaderForge.Document.Node
/-!
# Roots under construction

A root that grows by entries and items. Labels and children are two lists that belong together by
position, whatever the root is: an unlabelled child shifts the labels that come after it, and a
scalar root keeps its value while children gather under it.
-/

namespace HeaderForge

/-- What the root is. -/
inductive Draft.Head where
  | scalar (value : Node)
  | arr
  | obj
deriving Repr

structure Draft where
  head : Draft.Head
  labels : List Bytes
  children : List Node
deriving Repr

namespace Draft

def ofNode : Node → Draft
  | .arr items => ⟨.arr, [], items⟩
  | .obj entries => ⟨.obj, entries.map Prod.fst, entries.map Prod.snd⟩
  | value => ⟨.scalar value, [], []⟩

/-- The tree that the draft stands for: an object shows its labelled children, an array all. -/
def toNode (d : Draft) : Node :=
  match d.head with
  | .scalar value => value
  | .arr => .arr d.children
  | .obj => .obj (d.labels.zip d.children)

/-- Replaces the child at the place of the label, or adds a label and a child. -/
def set (d : Draft) (key : Bytes) (value : Node) : Draft :=
  match d.labels.idxOf? key with
  | some i => { d with children := d.children.set i value }
  | none => { d with labels := d.labels ++ [key], children := d.children ++ [value] }

def push (d : Draft) (value : Node) : Draft := { d with children := d.children ++ [value] }

def size (d : Draft) : Nat := d.children.length

end Draft

end HeaderForge
