import HeaderForge.Bytes.Sorted
import HeaderForge.Files.Path
/-!
# File trees

The files and folders that a run works on, as a value. A place is the list of names that leads to
it from the root; paths are followed name by name, and relative ones start at the working folder.

1. `FileTree.at?` is what a tree holds at a place; every other question is answered through it.
2. `FileTree.walk` follows names, each of which must be looked up in a folder.
3. `read`, `writeFile`, `removeFile`, `replaceFile` and `makeFolders` are the operations, with
   the error that refuses each.
-/

namespace HeaderForge

/-- The names that lead from the root to a file or folder. -/
abbrev Place := List Bytes

/-- What is at a place. A folder keeps what is in it in the order of the names, which are
distinct. -/
inductive Entry where
  | file (text : Bytes)
  | folder (entries : List (Bytes × Entry))
deriving Repr, Inhabited

namespace Entry

/-- What is at a place below an entry. -/
def at? : Entry → Place → Option Entry
  | e, [] => some e
  | folder entries, name :: p =>
    match entries.lookup name with
    | some e => e.at? p
    | none => none
  | file _, _ :: _ => none

/-- Puts an entry at a place below another one. The folder it goes to must be there. -/
def put : Entry → Place → Entry → Entry
  | _, [], new => new
  | folder entries, name :: p, new =>
    match entries.lookup name with
    | some e => folder (putSorted name (e.put p new) entries)
    | none => if p.isEmpty then folder (putSorted name new entries) else folder entries
  | file text, _ :: _, _ => file text

/-- Takes away what is at a place below an entry. -/
def erase : Entry → Place → Entry
  | e, [] => e
  | folder entries, [name] => folder (entries.filter fun entry => entry.1 ≠ name)
  | folder entries, name :: p =>
    match entries.lookup name with
    | some e => folder (putSorted name (e.erase p) entries)
    | none => folder entries
  | file text, _ :: _ => file text

mutual

/-- Everything below an entry, each with the names that lead there. What is in folders that the
search does not enter is left out. -/
def descendants (enters : Place → Bool) (p : Place) : Entry → List (Place × Entry)
  | file _ => []
  | folder entries => if enters p then descendantsOf enters p entries else []

def descendantsOf (enters : Place → Bool) (p : Place) : List (Bytes × Entry) → List (Place × Entry)
  | [] => []
  | (name, e) :: rest =>
    (p ++ [name], e) :: (descendants enters (p ++ [name]) e ++ descendantsOf enters p rest)

end

end Entry

inductive FileError where
  | missing
  | notFolder
  | isFolder
  | taken
  | nameTooLong
  | invalid
  | busy
  | denied
deriving DecidableEq, Repr

namespace FileError

def message : FileError → Bytes
  | missing => bytes "No such file or directory"
  | notFolder => bytes "Not a directory"
  | isFolder => bytes "Is a directory"
  | taken => bytes "File exists"
  | nameTooLong => bytes "File name too long"
  | invalid => bytes "Invalid argument"
  | busy => bytes "Device or resource busy"
  | denied => bytes "Permission denied"

/-- Whether the error says that there is nothing, and not that nothing is known. -/
def meansAbsent : FileError → Bool
  | missing | notFolder => true
  | _ => false

end FileError

structure FileTree where
  /-- The folder where relative paths start. -/
  base : Place
  /-- What is in the root. -/
  top : List (Bytes × Entry)
deriving Repr

namespace FileTree

/-! ## The view -/

def root (t : FileTree) : Entry := .folder t.top

/-- The tree with another root. A file cannot be one. -/
def withRoot (t : FileTree) : Entry → FileTree
  | .folder top => { t with top := top }
  | .file _ => t

/-- What is at a place. The root is a folder. -/
def at? (t : FileTree) (p : Place) : Option Entry := t.root.at? p

def put (t : FileTree) (p : Place) (e : Entry) : FileTree := t.withRoot (t.root.put p e)

def erase (t : FileTree) (p : Place) : FileTree := t.withRoot (t.root.erase p)

/-! ## Paths -/

/-- A name has at most so many bytes. -/
def maxName : Nat := 255

/-- A path has fewer bytes than this. -/
def maxPath : Nat := 4096

/-- The place that a name leads to from a place, which must be a folder. -/
def step (t : FileTree) (p : Place) (name : Bytes) : Except FileError Place :=
  match t.at? p with
  | none => .error .missing
  | some (.file _) => .error .notFolder
  | some (.folder _) =>
    if name = [] || name = bytes "." then .ok p
    else if name = bytes ".." then .ok p.dropLast
    else if name.length > maxName then .error .nameTooLong
    else .ok (p ++ [name])

/-- The place that names lead to. There may be nothing at it, but everything before is a folder. -/
def walk (t : FileTree) : Place → List Bytes → Except FileError Place
  | p, [] => .ok p
  | p, name :: rest => do walk t (← t.step p name) rest

/-- Where a path starts. -/
def startOf (t : FileTree) (path : Bytes) : Place := if Path.isAbsolute path then [] else t.base

/-- The place that a path leads to. -/
def place (t : FileTree) (path : Bytes) : Except FileError Place :=
  let path := Path.lookedUp path
  if path.isEmpty then .error .missing
  else if path.length ≥ maxPath then .error .nameTooLong
  else t.walk (t.startOf path) (Path.names path)

def entryAt (t : FileTree) (start : Place) (names : List Bytes) : Except FileError Entry := do
  match t.at? (← t.walk start names) with
  | some e => .ok e
  | none => .error .missing

/-- What a path leads to. -/
def entry (t : FileTree) (path : Bytes) : Except FileError Entry := do
  match t.at? (← t.place path) with
  | some e => .ok e
  | none => .error .missing

/-- Whether a path leads to anything. -/
def holds (t : FileTree) (path : Bytes) : Bool := (t.entry path).isOk

def isFolder (t : FileTree) (path : Bytes) : Bool :=
  match t.entry path with
  | .ok (.folder _) => true
  | _ => false

/-! ## Files -/

/-- The text of what a path leads to. A folder can be opened, and reads as the empty text. -/
def read (t : FileTree) (path : Bytes) : Except FileError Bytes := do
  match ← t.entry path with
  | .file text => .ok text
  | .folder _ => .ok []

def isFile (t : FileTree) (path : Bytes) : Bool :=
  match t.entry path with
  | .ok (.file _) => true
  | _ => false

/-- Writes a file, whether it is there or not. Its folder must be there. -/
def writeFile (t : FileTree) (path text : Bytes) : Except FileError FileTree := do
  let p ← t.place path
  match t.at? p with
  | some (.folder _) => .error .isFolder
  | some (.file _) | none => .ok (t.put p (.file text))

def removeFile (t : FileTree) (path : Bytes) : Except FileError FileTree := do
  let p ← t.place path
  match t.at? p with
  | some (.file _) => .ok (t.erase p)
  | some (.folder _) => .error .isFolder
  | none => .error .missing

/-- Whether a path ends in a name proper, which can be given to a file. -/
def namesEntry (path : Bytes) : Bool :=
  match Path.lastName? path with
  | some name => !Path.isDots name
  | none => false

/-- Moves a file to a path, over the file that is there. -/
def replaceFile (t : FileTree) (source target : Bytes) : Except FileError FileTree := do
  let p ← t.place source
  match t.at? p with
  | none => .error .missing
  | some (.folder _) => .error .isFolder
  | some (.file text) =>
    let q ← t.place target
    let target := Path.lookedUp target
    if !namesEntry target then .error .busy
    else if target.getLast? = some Path.slash then .error .notFolder
    else
      match t.at? q with
      | some (.folder _) => .error .isFolder
      | some (.file _) | none => .ok ((t.erase p).put q (.file text))

/-! ## Folders -/

/-- So many folders at most are made at once. -/
def maxMissing : Nat := 1000

/-- The place that names lead to as long as something is there, and the names that are left. -/
def follow (t : FileTree) (p : Place) : List Bytes → Place × List Bytes
  | [] => (p, [])
  | name :: rest =>
    match t.step p name with
    | .ok q => if (t.at? q).isSome then follow t q rest else (p, name :: rest)
    | .error _ => (p, name :: rest)

/-- Makes the folders that the names lead to, one in the other, until one is refused. Those that
were made stay. -/
def makeAlong (t : FileTree) (p : Place) : List Bytes → Option FileError × FileTree
  | [] => (none, t)
  | name :: rest =>
    match t.step p name with
    | .error e => (some e, t)
    | .ok q =>
      match t.at? q with
      | some (.folder _) => makeAlong t q rest
      | some (.file _) => (some .taken, t)
      | none => makeAlong (t.put q (.folder [])) q rest

/-- Makes the folders that are missing on a path. -/
def makeMissing (t : FileTree) (path : Bytes) : Option FileError × FileTree :=
  let names := (Path.names path).filter fun name => !name.isEmpty
  let (found, rest) := t.follow (t.startOf path) names
  if (rest.filter fun name => !Path.isDots name).length > maxMissing then (some .nameTooLong, t)
  else if (Path.lookedUp path).isEmpty then (some .missing, t)
  else
    match t.at? found with
    | some (.file _) => (some (if rest.isEmpty then .taken else .notFolder), t)
    | _ => t.makeAlong found (Path.lookedUpNames rest)

/-- Makes the folder that a path names, and every folder on the way that is missing. -/
def makeFolders (t : FileTree) (path : Bytes) : Option FileError × FileTree :=
  if path.isEmpty then (some .invalid, t)
  else
    match t.entry path with
    | .ok (.folder _) => (none, t)
    | .ok (.file _) => (some .notFolder, t)
    | .error e => if e.meansAbsent then t.makeMissing path else (some e, t)

/-! ## Whole folders -/

/-- Removes a file, or a folder with all that is in it. What is not there need not be removed. -/
def removeAll (t : FileTree) (path : Bytes) : FileTree :=
  match t.place path with
  | .ok p => t.erase p
  | .error _ => t

/-- Whether an entry may be put at a place for what is there: a file for a file, and a folder for a
folder with nothing in it. -/
def accepts (t : FileTree) (p : Place) (e : Entry) : Bool :=
  match e, t.at? p with
  | _, none => true
  | .file _, some (.file _) => true
  | .folder _, some (.folder []) => true
  | _, some _ => false

/-- Moves a file, or a folder with all that is in it, to a path that accepts it. A folder is not
moved into itself, and a move that is refused changes nothing. -/
def moveAll (t : FileTree) (source target : Bytes) : FileTree :=
  match t.place source, t.place target with
  | .ok p, .ok q =>
    match t.at? p with
    | some e => if p.isPrefixOf q || !t.accepts q e then t else (t.erase p).put q e
    | none => t
  | _, _ => t

end FileTree

end HeaderForge
