import HeaderForge.Failure
import HeaderForge.Files.Tree
import HeaderForge.Log
/-!
# Work on files

What a run changes: the files, and the log. A step may fail; what it wrote and logged before stays.
The trees that were replaced are kept, so that what became of a file can be asked step by step. Not
every change that a tree allows comes about: the system may refuse it, and a disk may be full before
a text has come to its end.
-/

namespace HeaderForge

/-- What may come in the way where a file is written, removed or replaced. -/
inductive Fault where
  /-- The system refuses it. -/
  | refused (e : FileError)
  /-- The disk is full after so many bytes of a text. -/
  | full (room : Nat)
deriving DecidableEq, Repr

namespace Fault

/-- What of a text comes to its file. -/
def taken : Option Fault → Bytes → Bytes
  | some (full room), text => text.take room
  | _, text => text

/-- Whether a text does not come to its file as a whole. -/
def cuts : Option Fault → Bytes → Bool
  | some (full room), text => room < text.length
  | _, _ => false

/-- What comes of a change that the tree allows or refuses. -/
def outcome : Option Fault → Except FileError FileTree → Except FileError FileTree
  | some (refused e), .ok _ => .error e
  | _, result => result

end Fault

/-- The files, how they came to be what they are, and what is still to come in the way. -/
structure Disk where
  current : FileTree
  /-- The trees before, from the newest one back. -/
  past : List FileTree
  /-- One for each file that is written, removed or replaced next. Nothing comes in the way of the
  others. -/
  faults : List (Option Fault)
deriving Repr

instance : Coe FileTree Disk := ⟨fun t => ⟨t, [], []⟩⟩

namespace Disk

def push (d : Disk) (t : FileTree) : Disk :=
  { d with current := t, past := d.current :: d.past }

/-- What comes in the way of the next change. -/
def fault? (d : Disk) : Option Fault := d.faults.head?.join

/-- The disk after the next change has met what came in its way. -/
def met (d : Disk) : Disk := { d with faults := d.faults.tail }

end Disk

structure Workspace where
  files : Disk
  log : Log
deriving Repr

def Workspace.tree (w : Workspace) : FileTree := w.files.current

abbrev Work := ExceptT FailureKind (StateM Workspace)

namespace Work

/-! ## Logging -/

def write (line : LogLine) : Work Unit := modify fun w => { w with log := w.log.write line }

def detail (tag message : Bytes) : Work Unit := write ⟨.detail, tag, message⟩
def info (tag message : Bytes) : Work Unit := write ⟨.progress, tag, message⟩
def warn (tag message : Bytes) : Work Unit := write ⟨.warning, tag, message⟩
def error (tag message : Bytes) : Work Unit := write ⟨.error, tag, message⟩

/-- Logs an error and fails. -/
def fail {α : Type} (kind : FailureKind) (tag message : Bytes) : Work α := do
  error tag message
  throw kind

/-! ## Steps -/

/-- The outcome of a step, whether it fails or not. -/
def attempt {α : Type} (step : Work α) : Work (Except FailureKind α) :=
  ExceptT.mk fun w =>
    let (outcome, w) := step.run.run w
    (.ok outcome, w)

def tree : Work FileTree := return (← get).tree

def setTree (t : FileTree) : Work Unit := modify fun w => { w with files := w.files.push t }

/-- Makes a folder and those on the way to it. -/
def makeFolders (path : Bytes) (refused : FileError → Work Unit) : Work Unit := do
  let (refusal, t) := (← tree).makeFolders path
  setTree t
  match refusal with
  | none => return
  | some e => refused e

/-- What comes in the way of the change that is made next. -/
def nextFault : Work (Option Fault) :=
  modifyGet fun w => (w.files.fault?, { w with files := w.files.met })

/-- Removes or replaces a file, unless that is refused. -/
def commit (result : Except FileError FileTree) (refused : FileError → Work Unit) : Work Unit := do
  match Fault.outcome (← nextFault) result with
  | .ok t => setTree t
  | .error e => refused e

/-- Writes a file. Where the disk is full, the file is left with the beginning of the text. -/
def writeFile (path text : Bytes) (refused : FileError → Work Unit) (short : Work Unit) :
    Work Unit := do
  let fault ← nextFault
  match Fault.outcome fault ((← tree).writeFile path (Fault.taken fault text)) with
  | .error e => refused e
  | .ok t =>
    setTree t
    if Fault.cuts fault text then short

end Work

end HeaderForge
