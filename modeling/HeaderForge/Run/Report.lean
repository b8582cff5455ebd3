import HeaderForge.Diagnostic
import HeaderForge.Files.Owned
/-!
# Run reports

What a run did, file by file. A run fails as a whole only where the project as a whole is at fault;
what goes wrong with one file is a line of the report.
-/

namespace HeaderForge

structure FileFailure where
  schemaName : Bytes
  path : Bytes
  kind : FailureKind
deriving DecidableEq, Repr

structure RunReport where
  created : List Bytes
  updated : List Bytes
  unchanged : List Bytes
  /-- The schemas whose files were up to date. -/
  skipped : List Bytes
  removed : List Bytes
  failed : List FileFailure
  diagnostics : Diagnostics
deriving DecidableEq, Repr

namespace RunReport

def empty : RunReport := ⟨[], [], [], [], [], [], []⟩

/-- Notes what became of a file. -/
def note (r : RunReport) (path : Bytes) : WriteOutcome → RunReport
  | .created => { r with created := r.created ++ [path] }
  | .updated => { r with updated := r.updated ++ [path] }
  | .unchanged => { r with unchanged := r.unchanged ++ [path] }

def noteSkipped (r : RunReport) (schemaName : Bytes) : RunReport :=
  { r with skipped := r.skipped ++ [schemaName] }

def noteRemoved (r : RunReport) (path : Bytes) : RunReport :=
  { r with removed := r.removed ++ [path] }

def noteFailed (r : RunReport) (schemaName path : Bytes) (kind : FailureKind) : RunReport :=
  { r with failed := r.failed ++ [⟨schemaName, path, kind⟩] }

/-- How many files were written. -/
def written (r : RunReport) : Nat := r.created.length + r.updated.length

/-- A run succeeds without failed files and without findings that are errors. -/
def succeeded (r : RunReport) : Bool := r.failed.isEmpty && !r.diagnostics.hasErrors

def exitCode (r : RunReport) : Nat := if r.succeeded then 0 else 1

/-- The line that sums a run up. -/
def summary (r : RunReport) (schemas : Nat) : Bytes :=
  row ["OK: schemas=", natText schemas, ", created=", natText r.created.length,
    ", updated=", natText r.updated.length, ", unchanged=", natText r.unchanged.length,
    ", skipped=", natText r.skipped.length, ", removed=", natText r.removed.length,
    ", failed=", natText r.failed.length]

end RunReport

end HeaderForge
