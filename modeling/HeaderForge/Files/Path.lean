import HeaderForge.Bytes
/-!
# Paths

Paths as they are written: names with slashes between them. Nothing here looks at what a path leads
to.
-/

namespace HeaderForge

namespace Path

def slash : UInt8 := byte '/'

/-- The path of a name under a folder. The empty path is where relative paths start. -/
def child (folder name : Bytes) : Bytes :=
  match folder.getLast? with
  | none => name
  | some b => if b == slash then folder ++ name else folder ++ slash :: name

/-- What stands after the last slash. -/
def fileName (path : Bytes) : Bytes := (path.reverse.takeWhile (· != slash)).reverse

/-- What stands before the last name and the slashes in front of it. -/
def parent (path : Bytes) : Bytes :=
  let front := dropEndWhile (· != slash) path
  let folder := dropEndWhile (· == slash) front
  if folder.isEmpty && !front.isEmpty then [slash] else folder

/-- The names between the slashes. An empty one is where slashes meet, or at an end. -/
def names (path : Bytes) : List Bytes := Bytes.splitAll slash path

def isAbsolute (path : Bytes) : Bool := path.head? == some slash

/-- The part of a path that is looked up: a zero byte ends it. -/
def lookedUp (path : Bytes) : Bytes := path.takeWhile (· != 0)

/-- The names that are looked up. None comes after a zero byte. -/
def lookedUpNames : List Bytes → List Bytes
  | [] => []
  | name :: rest => if 0 ∈ name then [lookedUp name] else name :: lookedUpNames rest

/-- Whether a name stands for a folder that was reached before: the folder itself or the one above
it. -/
def isDots (name : Bytes) : Bool := name = bytes "." || name = bytes ".."

/-- The last name of a path, which may have slashes after it. -/
def lastName? (path : Bytes) : Option Bytes :=
  ((names path).filter fun name => !name.isEmpty).getLast?

end Path

end HeaderForge
