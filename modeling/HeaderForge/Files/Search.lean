import HeaderForge.Files.Tree
/-!
# Searching folders

1. `settled?` is the place that a path stands for, also when not all of it is there.
2. `FileTree.search` finds the files of a name below a folder, outside folders that are passed over.
-/

namespace HeaderForge

/-- Folders that are never searched, whatever is in them. -/
def passedOver : List Bytes := [".git", "build", "node_modules", ".cache"].map bytes

namespace FileTree

/-! ## Places of paths -/

/-- A place after names that are not looked up. -/
def lexical (p : Place) (names : List Bytes) : Place :=
  names.foldl (fun p name =>
    if name = [] || name = bytes "." then p
    else if name = bytes ".." then p.dropLast
    else p ++ [name]) p

/-- Whether names end in a name proper, so that no slash remains at the end. -/
def endsInName (names : List Bytes) : Bool :=
  match names.getLast? with
  | none => false
  | some name => name ≠ [] && name ≠ bytes "." && name ≠ bytes ".."

/-- The place of names: looked up as long as something is there, and taken as they stand from then
on. -/
def settle (t : FileTree) (p : Place) : List Bytes → Option Place
  | [] => some p
  | name :: rest =>
    match t.step p (Path.lookedUp name) with
    | .ok q =>
      if (t.at? q).isSome then settle t q rest
      else if endsInName (name :: rest) then some (lexical p (name :: rest))
      else none
    | .error .nameTooLong => none
    | .error _ => if endsInName (name :: rest) then some (lexical p (name :: rest)) else none

/-- The place that a path stands for. A path of which nothing is there stands for none. -/
def settled? (t : FileTree) (path : Bytes) : Option Place :=
  let start := t.startOf path
  match t.entry path, Path.names path with
  | .ok _, _ => (t.place path).toOption
  | .error e, first :: rest =>
    if e.meansAbsent && (t.entryAt start [first]).isOk then t.settle start (first :: rest) else none
  | .error _, [] => none

/-! ## Files below a folder -/

/-- Whether a search from a place enters the folder that names lead to. -/
def isEntered (root : Place) (skip : Option Place) (names : List Bytes) : Bool :=
  match names.getLast? with
  | none => true
  | some name => name ∉ passedOver && some (root ++ names) ≠ skip

/-- The paths of the files of a name below a folder, outside folders that are passed over. -/
def pathsBelow (e : Entry) (enters : Place → Bool) (root fileName : Bytes) : List Bytes :=
  (e.descendants enters []).filterMap fun (names, e) =>
    match e with
    | .file _ =>
      if names.getLast? = some fileName then some (names.foldl Path.child root) else none
    | .folder _ => none

/-- The paths of the files of a name below a folder whose text is accepted, in order. The folder
that `skip` stands for is passed over. -/
def search (t : FileTree) (root fileName skip : Bytes) (accept : Bytes → Bool) : List Bytes :=
  match t.place root, t.entry root with
  | .ok p, .ok e =>
    Bytes.sort ((pathsBelow e (isEntered p (t.settled? skip)) root fileName).filter fun path =>
      match t.read path with
      | .ok text => accept text
      | .error _ => false)
  | _, _ => []

end FileTree

end HeaderForge
