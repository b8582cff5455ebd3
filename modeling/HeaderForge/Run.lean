import HeaderForge.Build.Classes
import HeaderForge.Cache
import HeaderForge.Config
import HeaderForge.Header.Compose
import HeaderForge.Lint
import HeaderForge.Run.Report
import HeaderForge.Schema.Dependence
/-!
# Runs

A run lints a document, builds its classes, and brings the header of each schema up to date: one
whose dependence hash is the recorded one is skipped, one that was moved is found, and those of
schemas that are gone are removed.

1. `Run.generateSchema` handles one schema and `Run.removeStale` one name that is gone. Both end
   well whatever happens to the file.
2. `Run.generate` is the whole run.
-/

namespace HeaderForge

namespace Run

def tag : Bytes := bytes "schemagen"
def fileTag : Bytes := bytes "codegen"

/-- The schema name under which the shared runtime header is owned. -/
def runtimeOwner : Bytes := bytes "schemagen_runtime"

def markers : Markers := Markers.standard

/-- What does not change during a run. -/
structure Context where
  config : Config
  style : Style
  index : Index
  registry : Registry

namespace Context

def render (c : Context) : RenderContext :=
  ⟨c.config.targetNamespace, c.config.generateDocs, some c.registry⟩

/-- Where the header of a schema is generated. -/
def target (c : Context) (schemaName : Bytes) : Bytes :=
  Path.child c.config.outputDir (Naming.headerFileName schemaName)

/-- The hash of everything that the header of a schema depends on. -/
def hash (c : Context) (s : NamedSchema) : Bytes :=
  c.index.dependenceHash s (c.config.fingerprint c.style.name)

end Context

/-- What grows during a run. -/
structure Progress where
  cache : Cache
  report : RunReport

namespace Progress

def commit (p : Progress) (name hash path : Bytes) (outcome : WriteOutcome) : Progress :=
  ⟨p.cache.commit name hash, p.report.note path outcome⟩

def drop (p : Progress) (name : Bytes) : Progress := { p with cache := p.cache.drop name }

/-- Notes that the file of a schema could not be brought up to date. -/
def failed (p : Progress) (name path : Bytes) (kind : FailureKind) : Progress :=
  ⟨p.cache.drop name, p.report.noteFailed name path kind⟩

end Progress

/-! ## Findings -/

def findingKind (d : Diagnostic) : LogKind := if d.level = .error then .error else .warning

def lintLine (d : Diagnostic) : LogLine :=
  ⟨findingKind d, bytes "lint", row [d.subject, ": ", d.message, " [", d.rule, "]"]⟩

def buildLine (d : Diagnostic) : LogLine :=
  ⟨findingKind d, tag, row [d.subject, ": ", d.message]⟩

def logAll (lines : List LogLine) : Work Unit :=
  modify fun w => { w with log := w.log.writeAll lines }

def logLint (found : Diagnostics) : Work Unit := do
  if !found.isEmpty then
    Work.detail (bytes "lint") (natText found.length ++ bytes " finding(s)")
  logAll (found.map lintLine)

/-- Runs a step, and then logs what the build found, also when the step fails. -/
def beforeFindings {α : Type} (found : Diagnostics) (step : Work α) : Work α :=
  ExceptT.mk fun w =>
    let (outcome, w) := step.run.run w
    (outcome, { w with log := w.log.writeAll (found.map buildLine) })

/-! ## Headers -/

/-- Brings the shared runtime header up to date, or removes it where nothing needs it any more. -/
def generateRuntime (c : Context) (r : RunReport) : Work RunReport := do
  let path := Path.child c.config.outputDir Header.runtimeHeaderName
  let support := c.style.runtimeSupport c.render
  if support.isEmpty then
    match ← Work.attempt (Owned.remove markers path runtimeOwner) with
    | .error kind => return r.noteFailed runtimeOwner path kind
    | .ok true =>
      Work.info tag (bytes "runtime no longer needed, deleted " ++ path)
      return r.noteRemoved path
    | .ok false => return r
  else
    match ← Work.attempt (Owned.write markers path runtimeOwner (Bytes.unlines support)) with
    | .error kind => return r.noteFailed runtimeOwner path kind
    | .ok outcome => return r.note path outcome

/-- Where the header of a schema is: in its place, or where it was moved to. Only one that was
generated before can have been moved. -/
def locateTarget (c : Context) (cache : Cache) (name : Bytes) : Work Bytes := do
  let target := c.target name
  if (← Work.tree).holds target || (cache.previous.lookup name).isNone then return target
  else
    match ← Owned.findMoved markers c.config.projectDir (Path.fileName target) name
      c.config.outputDir with
    | none => return target
    | some moved =>
      Work.info tag (row [name, ": merging into moved file ", moved])
      return moved

def isUpToDate (cache : Cache) (target name hash : Bytes) : Work Bool := do
  if (← Work.tree).holds target then return !(← cache.isStale name hash) else return false

def logOutcome (name path : Bytes) : WriteOutcome → Work Unit
  | .created => Work.info fileTag (row [name, " -> ", path])
  | .updated => Work.info fileTag (row [name, " -> ", path, " (updated)"])
  | .unchanged => return

/-- Writes the header of a class to a path. -/
def writeHeader (c : Context) (model : ClassModel) (name hash path : Bytes) (p : Progress) :
    Work Progress := do
  match Header.compose c.style c.render model with
  | .error kind =>
    Work.error tag (row [name, ": ", kind.message])
    return p.failed name path kind
  | .ok body =>
    match ← Work.attempt (Owned.write markers path name body) with
    | .error kind => return p.failed name path kind
    | .ok outcome =>
      logOutcome name path outcome
      return p.commit name hash path outcome

/-- Brings the header of a schema up to date. A schema whose class was superseded has none. -/
def generateSchema (c : Context) (s : NamedSchema) (p : Progress) : Work Progress := do
  match c.registry.findSchema? s.name with
  | none => return p.drop s.name
  | some model =>
    let path ← locateTarget c p.cache s.name
    let hash := c.hash s
    if ← isUpToDate p.cache path s.name hash then
      return { p with report := p.report.noteSkipped s.name }
    else writeHeader c model s.name hash path p

def generateSchemas (c : Context) : List NamedSchema → Progress → Work Progress
  | [], p => return p
  | s :: rest, p => do generateSchemas c rest (← generateSchema c s p)

/-- Removes the header of a schema that is gone. It stays recorded where that fails. -/
def removeStale (c : Context) (name : Bytes) (p : Progress) : Work Progress := do
  let path := c.target name
  match ← Work.attempt (Owned.remove markers path name) with
  | .error kind => return { p with report := p.report.noteFailed name path kind }
  | .ok removed =>
    if removed then
      Work.info fileTag (row [name, " removed, deleted ", path])
      return ⟨p.cache.drop name, p.report.noteRemoved path⟩
    else return p.drop name

def removeAllStale (c : Context) : List Bytes → Progress → Work Progress
  | [], p => return p
  | name :: rest, p => do removeAllStale c rest (← removeStale c name p)

/-! ## Whole runs -/

/-- Builds the classes of a document. What the build logs is logged, and what it finds is handed
on. -/
def buildClasses (index : Index) (config : Config) :
    Work (Except FailureKind Unit × BuildState) := do
  let (outcome, s) := (Build.buildAll index config.modelSettings).run.run Build.start
  logAll s.log.lines
  return (outcome, s)

/-- The cache that a run starts with. -/
def openCache (c : Context) : Work Cache := do
  let fresh :=
    { Cache.new (Path.child c.config.projectDir Cache.fileName) c.style.name with
      forced := c.config.force || !c.config.incremental }
  if c.config.incremental then fresh.load else return fresh

def makeOutputFolder (c : Context) : Work Unit :=
  Work.makeFolders c.config.outputDir fun e =>
    Work.fail .writeFailed tag (bytes "failed to create output dir: " ++ e.message)

/-- Brings all files up to date and saves the cache. -/
def generateFiles (c : Context) : Work RunReport := do
  let cache ← openCache c
  makeOutputFolder c
  let report ← generateRuntime c RunReport.empty
  let p ← generateSchemas c c.index.named ⟨cache, report⟩
  let p ← removeAllStale c (p.cache.removed c.index.names) p
  if c.config.incremental then p.cache.save
  return p.report

def logSummary (r : RunReport) (schemas : Nat) : Work Unit :=
  if r.failed.isEmpty then Work.info tag (r.summary schemas)
  else Work.error tag (r.summary schemas)

/-- Generates the headers of a document. -/
def generate (config : Config) (style : Style) (index : Index) : Work RunReport := do
  let linted := Lint.run index config.lint
  logLint linted
  let (outcome, s) ← buildClasses index config
  match outcome with
  | .error kind =>
    logAll (s.diagnostics.map buildLine)
    Work.fail kind tag (bytes "generation aborted: " ++ kind.message)
  | .ok () =>
    let report ← beforeFindings s.diagnostics (generateFiles ⟨config, style, index, s.registry⟩)
    logSummary report index.named.length
    return { report with diagnostics := linted ++ s.diagnostics }

end Run

end HeaderForge
