import HeaderForge.Proofs.Files.Work
import HeaderForge.Run
/-!
# Logging and linting decide nothing

A run logs all along, and it lints the document before it does anything else. Two runs that differ
in nothing but what is linted, what is shown of the log and what has been logged before end alike
and leave the same files, step by step.

1. `Work.Blind` steps never read the log. It has one rule for each way to build a step, and the
   steps of a run follow, one lemma per function.
2. `Context.listening` says otherwise what is linted and shown, and nothing that a run does to the
   files is other than for that context.
3. `generate_blind` compares two whole runs.
-/

namespace HeaderForge

namespace Work

variable {α β : Type} {m : Work α}

/-- Whatever has been logged before, a step from the same files, with the same in its way, ends alike
and leaves the same files, with the same trees on the way. -/
def Blind (m : Work α) : Prop :=
  ∀ (files : Disk) (log log' : Log),
    (m.run.run ⟨files, log'⟩).1 = (m.run.run ⟨files, log⟩).1 ∧
      (m.run.run ⟨files, log'⟩).2.files = (m.run.run ⟨files, log⟩).2.files

/-! ## Rules -/

theorem blind_pure (a : α) : Blind (pure a) := fun _ _ _ => ⟨rfl, rfl⟩

theorem blind_throw (kind : FailureKind) : Blind (throw kind : Work α) := fun _ _ _ => ⟨rfl, rfl⟩

/-- The second step starts from the same files, since the first one has left the same. -/
theorem Blind.bind {f : α → Work β} (first : Blind m) (next : ∀ a, Blind (f a)) :
    Blind (m >>= f) := by
  intro files log log'
  obtain ⟨outcome, left⟩ := first files log log'
  rw [run_bind, run_bind]
  rcases ran : m.run.run ⟨files, log⟩ with ⟨e | a, ⟨kept, later⟩⟩
  all_goals
    rcases ran' : m.run.run ⟨files, log'⟩ with ⟨r, ⟨kept', later'⟩⟩
    rw [ran, ran'] at outcome left
    dsimp only at outcome left
    subst outcome left
  · exact ⟨rfl, rfl⟩
  · exact next a kept' later later'

/-- A step that logs and leaves the files alone. -/
theorem blind_log (f : Log → Log) : Blind (modify fun w => { w with log := f w.log }) :=
  fun _ _ _ => ⟨rfl, rfl⟩

theorem blind_write (line : LogLine) : Blind (write line) := blind_log (Log.write · line)

theorem blind_detail (tag message : Bytes) : Blind (detail tag message) := blind_write _

theorem blind_info (tag message : Bytes) : Blind (info tag message) := blind_write _

theorem blind_warn (tag message : Bytes) : Blind (warn tag message) := blind_write _

theorem blind_error (tag message : Bytes) : Blind (error tag message) := blind_write _

theorem blind_fail (kind : FailureKind) (tag message : Bytes) :
    Blind (fail kind tag message : Work α) :=
  (blind_error _ _).bind fun _ => blind_throw kind

theorem Blind.attempt (h : Blind m) : Blind (attempt m) := by
  intro files log log'
  obtain ⟨outcome, left⟩ := h files log log'
  exact ⟨congrArg Except.ok outcome, left⟩

theorem blind_tree : Blind tree := fun _ _ _ => ⟨rfl, rfl⟩

theorem blind_setTree (t : FileTree) : Blind (setTree t) := fun _ _ _ => ⟨rfl, rfl⟩

theorem blind_makeFolders (path : Bytes) {refused : FileError → Work Unit}
    (refusals : ∀ e, Blind (refused e)) : Blind (makeFolders path refused) := by
  unfold makeFolders
  refine blind_tree.bind fun t => ?_
  dsimp only
  refine (blind_setTree _).bind fun _ => ?_
  split
  · exact blind_pure ()
  · exact refusals _

/-- What comes in the way of a change is not told by the log. -/
theorem blind_nextFault : Blind nextFault := fun _ _ _ => ⟨rfl, rfl⟩

theorem blind_commit (result : Except FileError FileTree) {refused : FileError → Work Unit}
    (refusals : ∀ e, Blind (refused e)) : Blind (commit result refused) := by
  unfold commit
  refine blind_nextFault.bind fun fault => ?_
  split
  · exact blind_setTree _
  · exact refusals _

theorem blind_writeFile (path text : Bytes) {refused : FileError → Work Unit} {short : Work Unit}
    (refusals : ∀ e, Blind (refused e)) (shorts : Blind short) :
    Blind (writeFile path text refused short) := by
  unfold writeFile
  refine blind_nextFault.bind fun fault => blind_tree.bind fun t => ?_
  split
  · exact refusals _
  · refine (blind_setTree _).bind fun _ => ?_
    split
    · exact shorts
    · exact blind_pure _

end Work

open Work (Blind)

/-! ## Files of schemas -/

namespace Owned

variable (m : Markers) (path schemaName : Bytes)

theorem blind_existing : Blind (existing path) := by
  unfold existing
  refine Work.blind_tree.bind fun t => ?_
  split
  · split
    · exact Work.blind_pure _
    · exact Work.blind_fail _ _ _
  · exact Work.blind_pure _

theorem blind_makeParent (tag : Bytes) : Blind (makeParent tag path) := by
  unfold makeParent
  dsimp only
  split
  · exact Work.blind_pure ()
  · exact Work.blind_makeFolders _ fun _ => Work.blind_fail _ _ _

theorem blind_write (body : Bytes) : Blind (write m path schemaName body) := by
  unfold write
  refine (blind_existing path).bind fun before => ?_
  split
  · exact Work.blind_fail _ _ _
  · split
    · exact (Work.blind_detail _ _).bind fun _ => Work.blind_pure _
    · refine (blind_makeParent path tag).bind fun _ => ?_
      refine (Work.blind_writeFile _ _ (fun _ => Work.blind_fail _ _ _)
        (Work.blind_fail _ _ _)).bind fun _ => ?_
      exact (Work.blind_detail _ _).bind fun _ => Work.blind_pure _

theorem blind_remove : Blind (remove m path schemaName) := by
  unfold remove
  refine Work.blind_tree.bind fun t => ?_
  split
  · exact Work.blind_pure _
  · split
    · exact Work.blind_throw _
    · split
      · refine (Work.blind_commit _ fun _ => Work.blind_fail _ _ _).bind fun _ => ?_
        exact (Work.blind_detail _ _).bind fun _ => Work.blind_pure _
      · exact (Work.blind_warn _ _).bind fun _ => Work.blind_pure _

theorem blind_findMoved (root fileName skip : Bytes) :
    Blind (findMoved m root fileName schemaName skip) := by
  unfold findMoved
  refine Work.blind_tree.bind fun t => ?_
  split
  · exact Work.blind_pure _
  · exact (Work.blind_detail _ _).bind fun _ => Work.blind_pure _

end Owned

/-! ## The record -/

namespace Cache

variable (c : Cache)

theorem blind_withRecord (r : CacheRecord) : Blind (c.withRecord r) := by
  unfold withRecord
  split
  · exact (Work.blind_detail _ _).bind fun _ => Work.blind_pure _
  · exact (Work.blind_info _ _).bind fun _ => Work.blind_pure _

theorem blind_load : Blind c.load := by
  unfold load
  refine Work.blind_tree.bind fun t => ?_
  split
  · split
    · exact c.blind_withRecord _
    · exact (Work.blind_warn _ _).bind fun _ => Work.blind_pure _
  · split
    · exact (Work.blind_detail _ _).bind fun _ => Work.blind_pure _
    · exact Work.blind_fail _ _ _

theorem blind_discardTemporary : Blind c.discardTemporary := by
  unfold discardTemporary
  exact Work.blind_tree.bind fun t => Work.blind_commit _ fun _ => Work.blind_pure _

theorem blind_replaceRecord : Blind c.replaceRecord := by
  unfold replaceRecord
  refine Work.blind_tree.bind fun t => Work.blind_commit _ fun e => ?_
  refine (Work.blind_error _ _).bind fun _ => ?_
  exact c.blind_discardTemporary.bind fun _ => Work.blind_throw _

theorem blind_save : Blind c.save := by
  unfold save
  refine (Owned.blind_makeParent _ _).bind fun _ => ?_
  refine (Work.blind_writeFile _ _ (fun _ => Work.blind_fail _ _ _) ?_).bind fun _ => ?_
  · refine (Work.blind_error _ _).bind fun _ => ?_
    exact c.blind_discardTemporary.bind fun _ => Work.blind_throw _
  · exact c.blind_replaceRecord.bind fun _ => Work.blind_detail _ _

theorem blind_isStale (name hash : Bytes) : Blind (c.isStale name hash) := by
  unfold isStale
  split
  · exact Work.blind_pure _
  · split
    · exact (Work.blind_detail _ _).bind fun _ => Work.blind_pure _
    · split
      all_goals exact (Work.blind_detail _ _).bind fun _ => Work.blind_pure _

end Cache

/-! ## Steps of a run -/

namespace Run

variable (c : Context)

theorem blind_generateRuntime (r : RunReport) : Blind (generateRuntime c r) := by
  unfold generateRuntime
  dsimp only
  split
  · refine (Owned.blind_remove _ _ _).attempt.bind fun removed => ?_
    split
    · exact Work.blind_pure _
    · exact (Work.blind_info _ _).bind fun _ => Work.blind_pure _
    · exact Work.blind_pure _
  · refine (Owned.blind_write _ _ _ _).attempt.bind fun written => ?_
    split
    all_goals exact Work.blind_pure _

theorem blind_locateTarget (cache : Cache) (name : Bytes) : Blind (locateTarget c cache name) := by
  unfold locateTarget
  dsimp only
  refine Work.blind_tree.bind fun t => ?_
  split
  · exact Work.blind_pure _
  · refine (Owned.blind_findMoved _ _ _ _ _).bind fun moved => ?_
    split
    · exact Work.blind_pure _
    · exact (Work.blind_info _ _).bind fun _ => Work.blind_pure _

theorem blind_isUpToDate (cache : Cache) (path name hash : Bytes) :
    Blind (isUpToDate cache path name hash) := by
  unfold isUpToDate
  refine Work.blind_tree.bind fun t => ?_
  split
  · exact (cache.blind_isStale name hash).bind fun _ => Work.blind_pure _
  · exact Work.blind_pure _

theorem blind_logOutcome (name path : Bytes) (outcome : WriteOutcome) :
    Blind (logOutcome name path outcome) := by
  cases outcome with
  | created | updated => exact Work.blind_info _ _
  | unchanged => exact Work.blind_pure ()

theorem blind_writeHeader (model : ClassModel) (name hash path : Bytes) (p : Progress) :
    Blind (writeHeader c model name hash path p) := by
  unfold writeHeader
  split
  · exact (Work.blind_error _ _).bind fun _ => Work.blind_pure _
  · refine (Owned.blind_write _ _ _ _).attempt.bind fun written => ?_
    split
    · exact Work.blind_pure _
    · exact (blind_logOutcome _ _ _).bind fun _ => Work.blind_pure _

theorem blind_generateSchema (s : NamedSchema) (p : Progress) : Blind (generateSchema c s p) := by
  unfold generateSchema
  split
  · exact Work.blind_pure _
  · refine (blind_locateTarget c p.cache s.name).bind fun path => ?_
    refine (blind_isUpToDate _ _ _ _).bind fun fresh => ?_
    split
    · exact Work.blind_pure _
    · exact blind_writeHeader c _ _ _ _ _

theorem blind_generateSchemas (schemas : List NamedSchema) (p : Progress) :
    Blind (generateSchemas c schemas p) := by
  induction schemas generalizing p with
  | nil => exact Work.blind_pure p
  | cons s rest ih => exact (blind_generateSchema c s p).bind ih

theorem blind_removeStale (name : Bytes) (p : Progress) : Blind (removeStale c name p) := by
  unfold removeStale
  refine (Owned.blind_remove _ _ _).attempt.bind fun removed => ?_
  split
  · exact Work.blind_pure _
  · split
    · exact (Work.blind_info _ _).bind fun _ => Work.blind_pure _
    · exact Work.blind_pure _

theorem blind_removeAllStale (names : List Bytes) (p : Progress) :
    Blind (removeAllStale c names p) := by
  induction names generalizing p with
  | nil => exact Work.blind_pure p
  | cons name rest ih => exact (blind_removeStale c name p).bind ih

theorem blind_openCache : Blind (openCache c) := by
  unfold openCache
  dsimp only
  split
  · exact Cache.blind_load _
  · exact Work.blind_pure _

theorem blind_generateFiles : Blind (generateFiles c) := by
  unfold generateFiles makeOutputFolder
  refine (blind_openCache c).bind fun cache => ?_
  refine (Work.blind_makeFolders _ fun _ => Work.blind_fail _ _ _).bind fun _ => ?_
  refine (blind_generateRuntime c _).bind fun report => ?_
  refine (blind_generateSchemas c _ _).bind fun p => ?_
  refine (blind_removeAllStale c _ _).bind fun q => ?_
  split
  · exact q.cache.blind_save.bind fun _ => Work.blind_pure _
  · exact Work.blind_pure _

theorem blind_logAll (lines : List LogLine) : Blind (logAll lines) :=
  Work.blind_log (Log.writeAll · lines)

theorem blind_buildClasses (index : Index) (config : Config) :
    Blind (buildClasses index config) :=
  (blind_logAll _).bind fun _ => Work.blind_pure _

theorem blind_beforeFindings {α : Type} {step : Work α} (h : Blind step) (found : Diagnostics) :
    Blind (beforeFindings found step) :=
  fun files log log' => h files log log'

theorem blind_logSummary (report : RunReport) (schemas : Nat) :
    Blind (logSummary report schemas) := by
  unfold logSummary
  split
  · exact Work.blind_info _ _
  · exact Work.blind_error _ _

/-! ## What is linted and shown -/

/-- The context with other rules of linting and another level of logging. -/
def Context.listening (c : Context) (lint : LintConfig) (level : LogLevel) : Context :=
  { c with config := { c.config with lint := lint, logLevel := level } }

variable (lint : LintConfig) (level : LogLevel)

theorem generateSchemas_listening (schemas : List NamedSchema) (p : Progress) :
    generateSchemas (c.listening lint level) schemas p = generateSchemas c schemas p := by
  induction schemas generalizing p with
  | nil => rfl
  | cons s rest ih =>
    have same : generateSchema (c.listening lint level) s p = generateSchema c s p := rfl
    rw [generateSchemas, generateSchemas, same]
    exact congrArg _ (funext ih)

theorem removeAllStale_listening (names : List Bytes) (p : Progress) :
    removeAllStale (c.listening lint level) names p = removeAllStale c names p := by
  induction names generalizing p with
  | nil => rfl
  | cons name rest ih =>
    have same : removeStale (c.listening lint level) name p = removeStale c name p := rfl
    rw [removeAllStale, removeAllStale, same]
    exact congrArg _ (funext ih)

/-- Files are brought up to date alike. -/
theorem generateFiles_listening : generateFiles (c.listening lint level) = generateFiles c := by
  have folder : makeOutputFolder (c.listening lint level) = makeOutputFolder c := rfl
  have runtime : generateRuntime (c.listening lint level) = generateRuntime c := rfl
  have cache : openCache (c.listening lint level) = openCache c := rfl
  unfold generateFiles
  simp only [folder, runtime, cache, generateSchemas_listening, removeAllStale_listening]
  rfl

/-! ## Whole runs -/

/-- A run apart from its linting. -/
def generateUnlinted (config : Config) (style : Style) (index : Index) : Work RunReport := do
  let (outcome, s) ← buildClasses index config
  match outcome with
  | .error kind =>
    logAll (s.diagnostics.map buildLine)
    Work.fail kind tag (bytes "generation aborted: " ++ kind.message)
  | .ok () =>
    let report ← beforeFindings s.diagnostics (generateFiles ⟨config, style, index, s.registry⟩)
    logSummary report index.named.length
    return { report with diagnostics := s.diagnostics }

/-- A report with what linting has found before what the build did. -/
def withLint (found : Diagnostics) (report : RunReport) : RunReport :=
  { report with diagnostics := found ++ report.diagnostics }

theorem generate_eq_unlinted (config : Config) (style : Style) (index : Index) :
    generate config style index = (do
      logLint (Lint.run index config.lint)
      let report ← generateUnlinted config style index
      return withLint (Lint.run index config.lint) report) := by
  unfold generate generateUnlinted
  dsimp only
  refine congrArg _ (funext fun _ => ?_)
  rw [bind_assoc]
  refine congrArg _ (funext fun ⟨outcome, s⟩ => ?_)
  cases outcome with
  | error kind => rfl
  | ok => simp [withLint]

theorem blind_generateUnlinted (config : Config) (style : Style) (index : Index) :
    Blind (generateUnlinted config style index) := by
  unfold generateUnlinted
  refine (blind_buildClasses index config).bind fun ⟨outcome, s⟩ => ?_
  cases outcome with
  | error kind => exact (blind_logAll _).bind fun _ => Work.blind_fail _ _ _
  | ok =>
    refine (blind_beforeFindings (blind_generateFiles _) _).bind fun report => ?_
    exact (blind_logSummary _ _).bind fun _ => Work.blind_pure _

theorem generateUnlinted_listening (config : Config) (style : Style) (index : Index) :
    generateUnlinted { config with lint := lint, logLevel := level } style index =
      generateUnlinted config style index := by
  have built : buildClasses index { config with lint := lint, logLevel := level } =
      buildClasses index config := rfl
  unfold generateUnlinted
  rw [built]
  refine congrArg _ (funext fun ⟨outcome, s⟩ => ?_)
  cases outcome with
  | error kind => rfl
  | ok =>
    have files := generateFiles_listening ⟨config, style, index, s.registry⟩ lint level
    dsimp only [Context.listening] at files ⊢
    rw [files]

/-- A run is its linting, which changes no file, and then what it does without. -/
theorem run_generate (config : Config) (style : Style) (index : Index) (files : Disk)
    (log : Log) : ∃ log',
      ((generate config style index).run.run ⟨files, log⟩).1 =
        ((generateUnlinted config style index).run.run ⟨files, log'⟩).1.map
          (withLint (Lint.run index config.lint)) ∧
      ((generate config style index).run.run ⟨files, log⟩).2 =
        ((generateUnlinted config style index).run.run ⟨files, log'⟩).2 := by
  obtain ⟨log', linted⟩ : ∃ log', (logLint (Lint.run index config.lint)).run.run ⟨files, log⟩ =
      (.ok (), ⟨files, log'⟩) := by
    unfold logLint
    dsimp only
    split
    · exact ⟨_, rfl⟩
    · exact ⟨_, rfl⟩
  refine ⟨log', ?_⟩
  rw [generate_eq_unlinted, run_bind, linted]
  dsimp only
  rw [run_bind]
  rcases (generateUnlinted config style index).run.run ⟨files, log'⟩ with ⟨e | report, w⟩
  · exact ⟨rfl, rfl⟩
  · exact ⟨rfl, rfl⟩

/-- A report without its findings: what became of the files. -/
def withoutFindings (report : RunReport) : RunReport := { report with diagnostics := [] }

/-- Two runs for one document that differ in nothing but what is linted, what is shown of the log
and what was logged before fail alike or report the same about the files, and leave the same files,
with the same trees on the way. The same comes in their way, also a disk that is full. -/
theorem generate_blind (config : Config) (lint : LintConfig) (level : LogLevel) (style : Style)
    (index : Index) (files : Disk) (log log' : Log) :
    let one := (generate config style index).run.run ⟨files, log⟩
    let other := (generate { config with lint := lint, logLevel := level } style index).run.run
      ⟨files, log'⟩
    other.1.map withoutFindings = one.1.map withoutFindings ∧ other.2.files = one.2.files := by
  intro one other
  obtain ⟨before, outcome, left⟩ := run_generate config style index files log
  obtain ⟨before', outcome', left'⟩ :=
    run_generate { config with lint := lint, logLevel := level } style index files log'
  rw [generateUnlinted_listening] at outcome' left'
  obtain ⟨same, kept⟩ := blind_generateUnlinted config style index files before before'
  have forgets : ∀ (found : Diagnostics) (r : Except FailureKind RunReport),
      (r.map (withLint found)).map withoutFindings = r.map withoutFindings := by
    intro found r
    cases r <;> rfl
  constructor
  · rw [outcome', outcome, forgets, forgets, same]
  · rw [left', left, kept]

end Run

end HeaderForge
