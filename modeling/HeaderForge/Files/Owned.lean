import HeaderForge.Files.Search
import HeaderForge.Files.Work
import HeaderForge.Region
/-!
# Files of schemas

Writing and removing the file of a schema. A file is only changed between its markers, and only
removed when it says that it belongs to the schema.
-/

namespace HeaderForge

inductive WriteOutcome where
  | created
  | updated
  | unchanged
deriving DecidableEq, Repr

def WriteOutcome.text : WriteOutcome → Bytes
  | created => bytes "created"
  | updated => bytes "updated"
  | unchanged => bytes "unchanged"

namespace Owned

def tag : Bytes := bytes "merge"

/-- The text of a file, if it is there. -/
def existing (path : Bytes) : Work (Option Bytes) := do
  let t ← Work.tree
  if t.holds path then
    match t.read path with
    | .ok text => return some text
    | .error _ => Work.fail .writeFailed tag (bytes "cannot read " ++ path)
  else return none

/-- Makes the folder of a file, if its path names one. -/
def makeParent (tag path : Bytes) : Work Unit :=
  let folder := Path.parent path
  if folder.isEmpty then return
  else
    Work.makeFolders folder fun e =>
      Work.fail .writeFailed tag (bytes "cannot create " ++ folder ++ bytes ": " ++ e.message)

/-- Brings the generated part of the file of a schema up to date. A file whose text would stay the
same is not written. -/
def write (m : Markers) (path schemaName body : Bytes) : Work WriteOutcome := do
  let before ← existing path
  match Region.merge m before schemaName body with
  | .error kind =>
    Work.fail kind tag
      (path ++ bytes ": " ++ kind.message ++ bytes "; the file was left untouched")
  | .ok merged =>
    if before = some merged then
      Work.detail tag (path ++ bytes ": unchanged")
      return .unchanged
    else
      makeParent tag path
      Work.writeFile path merged
        (fun _ => Work.fail .writeFailed tag (bytes "failed to write " ++ path))
        (Work.fail .writeFailed tag (bytes "short write to " ++ path))
      let outcome : WriteOutcome := if before.isSome then .updated else .created
      Work.detail tag (path ++ bytes ": " ++ outcome.text)
      return outcome

/-- Removes the file of a schema, and says whether there was one to remove. -/
def remove (m : Markers) (path schemaName : Bytes) : Work Bool := do
  let t ← Work.tree
  if !t.holds path then return false
  else
    match t.read path with
    | .error _ => throw .writeFailed
    | .ok text =>
      if carries m text schemaName then
        Work.commit (t.removeFile path) fun e =>
          Work.fail .writeFailed tag (bytes "cannot delete " ++ path ++ bytes ": " ++ e.message)
        Work.detail tag (path ++ bytes ": deleted")
        return true
      else
        Work.warn tag
          (path ++ bytes " does not carry the marker for " ++ schemaName ++
            bytes "; not deleted")
        return false

/-- The file of a schema that was moved elsewhere below a folder. -/
def findMoved (m : Markers) (root fileName schemaName skip : Bytes) : Work (Option Bytes) := do
  match (← Work.tree).search root fileName skip fun text => carries m text schemaName with
  | [] => return none
  | path :: _ =>
    Work.detail tag (schemaName ++ bytes ": found moved file " ++ path)
    return some path

end Owned

end HeaderForge
