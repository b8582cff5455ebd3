import HeaderForge.Cache.Record
import HeaderForge.Files.Owned
/-!
# The cache

Which files are up to date. Questions are answered from the record of the run before; what changes
goes to the pending record, which is saved at the end of a run. So a run that is stopped leaves the
record as it was.
-/

namespace HeaderForge

structure Cache where
  file : Bytes
  style : Bytes
  /-- Whether every file counts as out of date. -/
  forced : Bool
  /-- Whether the record that was there could not be used. -/
  recovered : Bool
  previous : List (Bytes × Bytes)
  pending : List (Bytes × Bytes)
deriving DecidableEq, Repr

namespace Cache

/-- The name of the record in the folder of a project. -/
def fileName : Bytes := bytes ".schemagen.cache"

def tag : Bytes := bytes "cache"

def new (file style : Bytes) : Cache := ⟨file, style, false, false, [], []⟩

/-- A cache that knows nothing. -/
def emptied (c : Cache) : Cache := { c with recovered := false, previous := [], pending := [] }

def countText (n : Nat) : Bytes :=
  natText n ++ if n = 1 then bytes " entry" else bytes " entries"

/-! ## Records -/

/-- The cache with what a record says, which counts only for the style it was written for. -/
def withRecord (c : Cache) (r : CacheRecord) : Work Cache := do
  if r.style = c.style then
    Work.detail tag
      (bytes "loaded " ++ countText r.hashes.length ++ bytes " from " ++ c.file)
    return { c.emptied with previous := r.hashes, pending := r.hashes }
  else
    Work.info tag
      (bytes "record was written for style '" ++ r.style ++ bytes "', regenerating for '" ++
        c.style ++ bytes "'")
    return c.emptied

/-- Reads the record. One that is not there, is damaged or was written for another style counts as
empty. -/
def load (c : Cache) : Work Cache := do
  match (← Work.tree).read c.file with
  | .ok text =>
    match CacheRecord.read text with
    | some r => c.withRecord r
    | none =>
      Work.warn tag
        (c.file ++ bytes ": " ++ FailureKind.cacheCorrupt.message ++
          bytes ", regenerating every schema")
      return { c.emptied with recovered := true }
  | .error e =>
    if e.meansAbsent then
      Work.detail tag (bytes "no record at " ++ c.file ++ bytes ", starting empty")
      return c.emptied
    else
      Work.fail .cacheUnreadable tag (bytes "cannot stat " ++ c.file ++ bytes ": " ++ e.message)

/-- The file that a record is written to before it replaces the one that is there. -/
def temporary (c : Cache) : Bytes := c.file ++ bytes ".tmp"

/-- Removes the temporary file, whether that succeeds or not. -/
def discardTemporary (c : Cache) : Work Unit := do
  Work.commit ((← Work.tree).removeFile c.temporary) fun _ => return

/-- Puts the temporary file in place, or removes it. -/
def replaceRecord (c : Cache) : Work Unit := do
  Work.commit ((← Work.tree).replaceFile c.temporary c.file) fun e => do
    Work.error tag (bytes "cannot replace " ++ c.file ++ bytes ": " ++ e.message)
    c.discardTemporary
    throw .writeFailed

/-- Writes the pending record. One that does not come to the disk as a whole is removed again, and
the record before it stays. -/
def save (c : Cache) : Work Unit := do
  Owned.makeParent tag c.file
  Work.writeFile c.temporary (CacheRecord.text ⟨c.style, c.pending⟩)
    (fun _ => Work.fail .writeFailed tag (bytes "cannot write " ++ c.temporary))
    (do
      Work.error tag (bytes "short write to " ++ c.temporary)
      c.discardTemporary
      throw .writeFailed)
  c.replaceRecord
  Work.detail tag (bytes "saved " ++ countText c.pending.length ++ bytes " to " ++ c.file)

/-! ## Entries -/

/-- Whether the file of a schema has to be generated again. -/
def isStale (c : Cache) (name hash : Bytes) : Work Bool :=
  if c.forced then return true
  else
    match c.previous.lookup name with
    | none => do
      Work.detail tag (name ++ bytes ": not cached")
      return true
    | some known =>
      if known = hash then do
        Work.detail tag (name ++ bytes ": unchanged")
        return false
      else do
        Work.detail tag (name ++ bytes ": content changed")
        return true

/-- Notes that the file of a schema is up to date. -/
def commit (c : Cache) (name hash : Bytes) : Cache :=
  { c with pending := putSorted name hash c.pending }

/-- Notes that the file of a schema is not up to date. -/
def drop (c : Cache) (name : Bytes) : Cache :=
  { c with pending := c.pending.filter fun entry => entry.1 ≠ name }

/-- The hash that the run before left for a name. -/
def previousHash (c : Cache) (name : Bytes) : Option Bytes := c.previous.lookup name

/-- The hash that this run leaves for a name so far. -/
def pendingHash (c : Cache) (name : Bytes) : Option Bytes := c.pending.lookup name

/-- The names of the run before that are not among the current ones. -/
def removed (c : Cache) (current : List Bytes) : List Bytes :=
  (c.previous.map Prod.fst).filter fun name => name ∉ current

end Cache

end HeaderForge
