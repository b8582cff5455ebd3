import HeaderForge.Files.Tree
/-!
# Changes of file trees

What has become of the files and folders below the working folder.
-/

namespace HeaderForge

/-- A file with its text, or a folder without one, under its path. That of a folder ends in a
slash. -/
abbrev Listed := Bytes × Option Bytes

namespace FileTree

/-- A file or folder under its path from the working folder. -/
def listed : Place × Entry → Listed
  | (names, .file text) => (Bytes.join [Path.slash] names, some text)
  | (names, .folder _) => (Bytes.join [Path.slash] names ++ [Path.slash], none)

/-- Everything below the working folder in the order of the paths. -/
def listing (t : FileTree) : List Listed :=
  match t.at? t.base with
  | some e => Bytes.sortKeys ((e.descendants (fun _ => true) []).map listed)
  | none => []

end FileTree

/-- The difference between two trees, each part in the order of the paths. -/
structure FileChanges where
  /-- What is new, and files with another text. -/
  written : List Listed
  gone : List Bytes
deriving DecidableEq, Repr

namespace FileChanges

/-- The entries of the second listing that are not in the first one. Both are in order. -/
def added : (old new : List Listed) → List Listed
  | _, [] => []
  | old, entry :: new =>
    let old := old.dropWhile fun before => before.1 < entry.1
    if old.head? = some entry then added old new else entry :: added old new

/-- The paths of the first listing that the second one does not have. Both are in order. -/
def dropped : (old new : List Listed) → List Bytes
  | [], _ => []
  | before :: old, new =>
    let new := new.dropWhile fun entry => entry.1 < before.1
    if (new.head?.map Prod.fst) = some before.1 then dropped old new
    else before.1 :: dropped old new

def between (before after : FileTree) : FileChanges :=
  let old := before.listing
  let new := after.listing
  ⟨added old new, dropped old new⟩

end FileChanges

end HeaderForge
