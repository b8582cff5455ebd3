import HeaderForge.Proofs.Run.Frame
import HeaderForge.Proofs.Run.Settling
import HeaderForge.Proofs.Schema.Index
/-!
# What a run leaves on record

Where a run returns a report, the record that it has saved says of every name what its own step made
of it, whatever was on record before.

1. `Run.Fails` says which names fail, each at its turn in a run.
2. `Run.Recorded` is what a run leaves and the next one loads, and `Run.gives_generateFiles` is
   that it does.
3. `Run.generate_record` is the result for whole runs. A failure that is listed for the shared
   runtime header does not count, also where a schema has the name that it is listed under.
-/

namespace HeaderForge

namespace Run

open Work

variable {c : Context} {p q : Progress} {failures : List FileFailure}

/-! ## The course of a run -/

/-- The start of a run, up to the shared runtime header. -/
def beginning (c : Context) : Work Progress := do
  let cache ← openCache c
  makeOutputFolder c
  let report ← generateRuntime c RunReport.empty
  return ⟨cache, report⟩

/-- A run up to where it has dealt with these schemas, and with these names that are gone. -/
def stepsThrough (c : Context) (schemas : List NamedSchema) (gone : List Bytes) :
    Work Progress := do
  let p ← beginning c
  let p ← generateSchemas c schemas p
  removeAllStale c gone p

theorem generateFiles_eq (c : Context) :
    generateFiles c = (do
      let p ← beginning c
      let p ← generateSchemas c c.index.named p
      let p ← removeAllStale c (p.cache.removed c.index.names) p
      if c.config.incremental then p.cache.save
      return p.report) := by
  simp only [generateFiles, beginning, bind_assoc, pure_bind]

/-- The failures that a run lists for the shared runtime header. -/
def sharedFailures (c : Context) (w : Workspace) : List FileFailure :=
  match (beginning c).run.run w with
  | (.ok p, _) => p.report.failed
  | (.error _, _) => []

/-- Whether a name fails in a run: when it is its turn, the header of the schema cannot be brought
up to date, or that of the name that is gone cannot be removed. -/
inductive Fails (c : Context) (w : Workspace) (name : Bytes) : Prop
  | header {front back : List NamedSchema} {s : NamedSchema} {p : Progress} {u : Workspace}
    (turn : c.index.named = front ++ s :: back)
    (steps : (stepsThrough c front []).run.run w = (.ok p, u)) (named : s.name = name)
    (fails : HeaderFails c s p.cache u)
  | removal {front back : List Bytes} {p q : Progress} {u v : Workspace}
    (began : (beginning c).run.run w = (.ok p, v))
    (turn : p.cache.removed c.index.names = front ++ name :: back)
    (steps : (stepsThrough c c.index.named front).run.run w = (.ok q, u))
    (fails : RemovalFails c name u)

/-- The record says of every name what it is to say after these failures, and nothing else. -/
structure OnRecord (c : Context) (before : List (Bytes × Bytes)) (failures : List FileFailure)
    (hashes : List (Bytes × Bytes)) : Prop where
  order : KeysInOrder hashes
  entry : ∀ name, hashes.lookup name = entryAfter c before failures name

/-- What a run leaves where it returns a report with a tree: the failures of schemas, which are
those that fail at their turn, and the hashes that it has saved and the next run loads, among them
the current ones of the schemas that were skipped. -/
structure Recorded (c : Context) (before : List (Bytes × Bytes)) (w : Workspace)
    (report : RunReport) (t : FileTree) (own : List FileFailure) (hashes : List (Bytes × Bytes)) :
    Prop where
  listed : report.failed = sharedFailures c w ++ own
  shared : ∀ f, f ∈ sharedFailures c w → f.schemaName = runtimeOwner
  failed : ∀ name, name ∈ own.map FileFailure.schemaName ↔ Fails c w name
  saved : t.textOf? (Path.child c.config.projectDir Cache.fileName) =
    some (CacheRecord.text ⟨c.style.name, hashes⟩)
  loads : (freshCache c.config c.style).onRecord t = hashes
  record : OnRecord c before own hashes
  current : ∀ name, name ∈ report.skipped →
    ∃ s, c.index.find? name = some s ∧ hashes.lookup name = some (c.hash s)

/-! ## The start -/

theorem gives_openCache (incremental : c.config.incremental = true) (w : Workspace) :
    Gives (openCache c) w fun cache _ =>
      (freshCache c.config c.style).LoadedFrom ((freshCache c.config c.style).onRecord w.tree)
        cache := by
  unfold openCache
  dsimp only
  rw [if_pos incremental]
  exact Triple.gives (R := fun _ _ => True)
    (Cache.triple_load (freshCache c.config c.style) w.tree) rfl

/-- The shared runtime header fails under its own name, and no schema is skipped for it. -/
theorem gives_generateRuntime (c : Context) (w : Workspace) :
    Gives (generateRuntime c RunReport.empty) w fun r _ =>
      r.skipped = [] ∧ ∀ f, f ∈ r.failed → f.schemaName = runtimeOwner := by
  have failed : ∀ path kind, ∀ f,
      f ∈ (RunReport.empty.noteFailed runtimeOwner path kind).failed →
        f.schemaName = runtimeOwner := by
    intro path kind f member
    rw [List.mem_singleton.mp member]
  unfold generateRuntime
  dsimp only
  split
  · refine gives_attempt fun outcome v _ => ?_
    split
    · exact Gives.pure ⟨rfl, failed _ _⟩
    · exact gives_after_write fun _ _ => Gives.pure ⟨rfl, List.forall_mem_nil _⟩
    · exact Gives.pure ⟨rfl, List.forall_mem_nil _⟩
  · refine gives_attempt fun outcome v _ => ?_
    split
    · exact Gives.pure ⟨rfl, failed _ _⟩
    · refine Gives.pure ?_
      rw [RunReport.failed_note, RunReport.skipped_note]
      exact ⟨rfl, List.forall_mem_nil _⟩

theorem gives_beginning (incremental : c.config.incremental = true) (w : Workspace) :
    Gives (beginning c) w fun p _ =>
      (freshCache c.config c.style).LoadedFrom ((freshCache c.config c.style).onRecord w.tree)
        p.cache ∧
      p.report.skipped = [] ∧ ∀ f, f ∈ p.report.failed → f.schemaName = runtimeOwner := by
  refine (gives_openCache incremental w).bind fun cache v loaded => ?_
  refine (Gives.any (makeOutputFolder c) v).bind fun _ u _ => ?_
  refine (gives_generateRuntime c u).bind fun report _ fine => Gives.pure ?_
  exact ⟨loaded, fine⟩

/-! ## All files -/

/-- The steps of a run settle every name, those of the document and those that are gone from it. -/
theorem onRecord_of_settles {fresh : Cache} {hashes : List (Bytes × Bytes)}
    {skipped : List Bytes} (opened : fresh.LoadedFrom hashes p.cache) (order : KeysInOrder hashes)
    (settled : Settles c (c.index.names ++ p.cache.removed c.index.names) failures skipped p q) :
    OnRecord c hashes failures q.cache.pending := by
  refine ⟨settled.cache.order (opened.pending ▸ order), fun name => ?_⟩
  by_cases known : name ∈ c.index.names ++ p.cache.removed c.index.names
  · rw [settled.entry name known (by rw [opened.pending, opened.previous]), opened.previous]
  · -- A name that no step was about is neither in the document nor on record.
    have absent : name ∉ c.index.names := fun member => known (List.mem_append_left _ member)
    have unrecorded : name ∉ hashes.map Prod.fst := by
      intro member
      refine known (List.mem_append_right _ (List.mem_filter.mpr ⟨?_, by simpa using absent⟩))
      rwa [opened.previous]
    rw [settled.cache.other name known, opened.pending, lookup_eq_none unrecorded]
    refine (entryAfter_of_gone (Index.find?_eq_none absent) ?_).symm
    exact fun failed => known (settled.failed name failed)

/-- What a record says after a run can be read back. -/
theorem OnRecord.wellFormed {before hashes : List (Bytes × Bytes)} {style : Bytes}
    (record : OnRecord c before failures hashes)
    (wf : CacheRecord.WellFormed ⟨style, before⟩) : CacheRecord.WellFormed ⟨style, hashes⟩ := by
  refine ⟨record.order, fun entry member => ?_⟩
  have found := record.order.lookup_of_mem member
  rw [record.entry] at found
  refine entryAfter_ne_nil (fun name hash h => ?_) found
  obtain ⟨front, back, equal, _⟩ := List.lookup_eq_some_iff.mp h
  exact wf.proper (name, hash) (equal ▸ List.mem_append_right front List.mem_cons_self)

/-- The names that are listed, of the document and of those that are gone, are those that fail. -/
theorem mem_failed_iff {others : List FileFailure} {w w₁ w₂ : Workspace} {name : Bytes}
    (began : (beginning c).run.run w = (.ok p, w₁))
    (generated : (generateSchemas c c.index.named p).run.run w₁ = (.ok q, w₂))
    (headers : ListsAtTurn (generateSchemas c) NamedSchema.name
      (fun s q u => HeaderFails c s q.cache u) c.index.named failures p w₁)
    (ofHeaders : ∀ name, name ∈ failures.map FileFailure.schemaName →
      name ∈ c.index.named.map NamedSchema.name)
    (removals : ListsAtTurn (removeAllStale c) id (fun name _ u => RemovalFails c name u)
      (p.cache.removed c.index.names) others q w₂)
    (ofRemovals : ∀ name, name ∈ others.map FileFailure.schemaName →
      name ∈ (p.cache.removed c.index.names).map id) :
    name ∈ (failures ++ others).map FileFailure.schemaName ↔ Fails c w name := by
  have through : ∀ schemas gone r v,
      (generateSchemas c schemas p).run.run w₁ = (.ok r, v) →
        (stepsThrough c schemas gone).run.run w = (removeAllStale c gone r).run.run v := by
    intro schemas gone r v ran
    rw [stepsThrough, run_bind, began]
    dsimp only
    rw [run_bind, ran]
  rw [List.map_append, List.mem_append, headers.mem_iff ofHeaders, removals.mem_iff ofRemovals]
  constructor
  · rintro (⟨front, s, back, r, v, turn, ran, named, fails⟩ |
      ⟨front, name, back, r, v, turn, ran, rfl, fails⟩)
    · exact .header turn (through front [] r v ran) named fails
    · exact .removal began turn ((through _ front q w₂ generated).trans ran) fails
  · intro fails
    cases fails with
    | @header front back s r v turn steps named fails =>
      obtain ⟨r', v', ran, _⟩ := headers front s back turn
      cases steps.symm.trans (through front [] r' v' ran)
      exact Or.inl ⟨front, s, back, r, v, turn, ran, named, fails⟩
    | @removal front back p' r u v began' turn steps fails =>
      cases began.symm.trans began'
      rw [through _ front q w₂ generated] at steps
      exact Or.inr ⟨front, name, back, r, u, turn, steps, rfl, fails⟩

theorem gives_generateFiles (incremental : c.config.incremental = true)
    (declared : c.index.Declared) (w : Workspace) :
    Gives (generateFiles c) w fun report u => ∃ own hashes,
      Recorded c ((freshCache c.config c.style).onRecord w.tree) w report u.tree own hashes := by
  rw [generateFiles_eq]
  refine (Gives.run (beginning c) w).bind fun p w₁ began => ?_
  obtain ⟨opened, noSkips, owner⟩ := gives_beginning incremental w p w₁ began
  have shares : sharedFailures c w = p.report.failed := by
    rw [sharedFailures, began]
  refine (Gives.run (generateSchemas c c.index.named p) w₁).bind fun q w₂ generated => ?_
  obtain ⟨failures, skipped, schemas, headers⟩ := gives_generateSchemas
    (fun s h => declared.find?_of_mem h) declared.distinct p w₁ q w₂ generated
  -- The names that are gone are those on record that are not in the document.
  have wf := Cache.wellFormed_onRecord (freshCache c.config c.style) w.tree
  have removed : q.cache.removed c.index.names = p.cache.removed c.index.names := by
    rw [Cache.removed, schemas.cache.same.previous, Cache.removed]
  have absent : ∀ name, name ∈ p.cache.removed c.index.names → name ∉ c.index.names :=
    fun name member => by simpa using (List.mem_filter.mp member).2
  have distinct : (p.cache.removed c.index.names).Nodup := by
    rw [Cache.removed, opened.previous]
    exact wf.order.nodup.filter _
  rw [removed]
  refine (gives_removeAllStale (fun name member => Index.find?_eq_none (absent name member))
    distinct q w₂).bind ?_
  rintro r w₃ ⟨others, skipped', stale, removals⟩
  have whole := schemas.append stale fun name here gone => absent name gone here
  have record := onRecord_of_settles opened wf.order whole
  dsimp only
  rw [if_pos incremental]
  refine (Cache.gives_save r.cache w₃).bind fun _ w₄ saved => Gives.pure ?_
  have same := whole.cache.same
  rw [same.file, same.style, opened.file, opened.style] at saved
  have loads := Cache.onRecord_of_saved (record.wellFormed wf) saved
  refine ⟨failures ++ others, r.cache.pending, ?_, ?_, ?_, saved, loads, record, ?_⟩
  · rw [shares]
    exact whole.lists
  · rw [shares]
    exact owner
  · intro name
    exact mem_failed_iff began generated headers schemas.failed removals
      (by simpa only [List.map_id] using stale.failed)
  · intro name member
    rw [whole.skips, noSkips, List.nil_append] at member
    obtain ⟨_, s, found, entry⟩ := whole.current name member
    rw [opened.previous] at entry
    exact ⟨s, found, (record.entry name).trans entry⟩

/-! ## Whole runs -/

/-- What happens before the files are brought up to date, where only the log changes. -/
def prepare (config : Config) (index : Index) : Work (Except FailureKind Unit × BuildState) := do
  logLint (Lint.run index config.lint)
  buildClasses index config

theorem generate_eq (config : Config) (style : Style) (index : Index) :
    generate config style index = (do
      let (outcome, s) ← prepare config index
      match outcome with
      | .error kind =>
        logAll (s.diagnostics.map buildLine)
        Work.fail kind tag (bytes "generation aborted: " ++ kind.message)
      | .ok () =>
        let report ← beforeFindings s.diagnostics
          (generateFiles ⟨config, style, index, s.registry⟩)
        logSummary report index.named.length
        return { report with diagnostics := Lint.run index config.lint ++ s.diagnostics }) :=
  (bind_assoc _ _ _).symm

theorem gives_logAll (lines : List LogLine) (w : Workspace) :
    Gives (logAll lines) w fun _ u => u.files = w.files :=
  Gives.modify rfl

theorem gives_prepare (config : Config) (index : Index) (w : Workspace) :
    Gives (prepare config index) w fun built u =>
      built = (Build.buildAll index config.modelSettings).run.run Build.start ∧
        u.files = w.files := by
  have linted : Gives (logLint (Lint.run index config.lint)) w fun _ u => u.files = w.files := by
    unfold logLint
    dsimp only
    split
    · refine gives_after_write fun v files => ?_
      exact (gives_logAll _ v).mono fun _ u same => same.trans files
    · exact gives_logAll _ w
  refine linted.bind fun _ v before => ?_
  unfold buildClasses
  exact (gives_logAll _ v).bind fun _ u files => Gives.pure ⟨rfl, files.trans before⟩

theorem returns_prepare (config : Config) (index : Index) (w : Workspace) :
    Returns (prepare config index) w := by
  have linted : Returns (logLint (Lint.run index config.lint)) w := by
    unfold logLint
    dsimp only
    split
    · exact Returns.andThen (returns_write _ w) fun _ u => Returns.modify _ u
    · exact Returns.modify _ w
  refine linted.andThen fun _ u => ?_
  unfold buildClasses
  exact Returns.andThen (Returns.modify _ u) fun _ v => Returns.pure _ v

theorem run_beforeFindings {α : Type} (found : Diagnostics) (step : Work α) (w : Workspace) :
    (beforeFindings found step).run.run w = ((step.run.run w).1, { (step.run.run w).2 with
      log := (step.run.run w).2.log.writeAll (found.map buildLine) }) := rfl

/-- What was found is logged after a step, so it does not matter for the files. -/
theorem gives_beforeFindings {α : Type} {step : Work α} {Q : α → FileTree → Prop} {w : Workspace}
    (h : Gives step w fun a u => Q a u.tree) (found : Diagnostics) :
    Gives (beforeFindings found step) w fun a u => Q a u.tree := by
  intro a u run
  rw [run_beforeFindings] at run
  rcases ran : step.run.run w with ⟨outcome, v⟩
  rw [ran] at run
  cases run
  exact h a v ran

theorem gives_logSummary (report : RunReport) (schemas : Nat) (w : Workspace) :
    Gives (logSummary report schemas) w fun _ u => u.files = w.files := by
  unfold logSummary
  split <;> exact Gives.modify rfl

/-- Where a run that keeps a record returns a report, it has saved a record that says of every name
what its own step made of it. A schema of the document with a class that did not fail has the hash
of what its header depends on now, a name that is gone has the entry that it had if its file could
not be removed, and there is nothing else. The failures that count are those of the schemas: one of
the shared runtime header, which is listed first, does not. -/
theorem generate_record {text : Bytes} {config : Config} {style : Style} {index : Index}
    {start : Workspace} {report : RunReport} {w : Workspace}
    (read : Index.read text = .ok index) (incremental : config.incremental = true)
    (run : (generate config style index).run.run start = (.ok report, w)) :
    ∃ st u own hashes,
      (Build.buildAll index config.modelSettings).run.run Build.start = (.ok (), st) ∧
      (prepare config index).run.run start = (.ok (.ok (), st), u) ∧ u.files = start.files ∧
      Recorded ⟨config, style, index, st.registry⟩ ((freshCache config style).onRecord start.tree) u
        report w.tree own hashes := by
  rw [generate_eq] at run
  obtain ⟨⟨outcome, st⟩, u, prepared, run⟩ := ok_of_run_bind run
  obtain ⟨built, files⟩ := gives_prepare config index start _ u prepared
  have same : u.tree = start.tree := congrArg Disk.current files
  dsimp only at run
  split at run
  · obtain ⟨_, v, _, run⟩ := ok_of_run_bind run
    exact (gives_fail (Q := fun _ _ => False) _ _ _ _ _ run).elim
  · obtain ⟨listed, v, ran, run⟩ := ok_of_run_bind run
    obtain ⟨_, v', summed, run⟩ := ok_of_run_bind run
    cases run
    have kept := gives_logSummary _ _ _ _ _ summed
    have steps := gives_generateFiles (c := ⟨config, style, index, st.registry⟩) incremental
      (Index.declared_of_read read) u
    obtain ⟨own, hashes, recorded⟩ := gives_beforeFindings (Q := fun report t => ∃ own hashes,
      Recorded ⟨config, style, index, st.registry⟩ _ u report t own hashes) steps st.diagnostics
      listed v ran
    rw [same] at recorded
    have after : w.tree = v.tree := congrArg Disk.current kept
    rw [← after] at recorded
    -- The findings are added to the report, and nothing here is said about them.
    exact ⟨st, u, own, hashes, built.symm, prepared, files, { recorded with }⟩

/-! ## A name that is listed twice -/

/-- What `generate_record` says of the record, if every failure that the report lists counts. -/
def RecordsReport (text : Bytes) (config : Config) (style : Style) (start : Workspace) : Prop :=
  ∀ index report w, Index.read text = .ok index →
    (generate config style index).run.run start = (.ok report, w) →
    ∃ hashes,
      w.tree.textOf? (Path.child config.projectDir Cache.fileName) =
        some (CacheRecord.text ⟨style.name, hashes⟩) ∧
      OnRecord ⟨config, style, index,
          ((Build.buildAll index config.modelSettings).run.run Build.start).2.registry⟩
        ((freshCache config style).onRecord start.tree) report.failed hashes

/-- A document with a record that refers to itself, and a schema of the name that the shared runtime
header is listed under. -/
def exNamesake : Bytes :=
  (Node.obj [(bytes "swagger", .str (bytes "2.0")), (bytes "definitions", .obj
    [(bytes "Pet", .obj [(bytes "properties", .obj
      [(bytes "mate", .obj [(bytes "$ref", .str (bytes "Pet"))])])]),
     (runtimeOwner, .obj [(bytes "type", .str (bytes "string"))])])]).toJson

/-- A project with the current hashes of these schemas on record, where another file is in the place
of both headers of this name. -/
def exOccupied : FileTree :=
  ⟨[], [(Cache.fileName, .file (CacheRecord.text ⟨bytes "plain",
      [(bytes "Pet", bytes "d7269ce9df8f38cb"), (runtimeOwner, bytes "eb217aaa45311c98")]⟩)),
    (bytes "generated", .folder [(bytes "pet.hpp", .file []),
      (bytes "schemagen_runtime.hpp", .file (bytes "hello"))])]⟩

/-- A run for a document with the standard configuration. -/
def exRun? (text : Bytes) (t : FileTree) : Option (Index × RunReport × Workspace) :=
  match Index.read text with
  | .error _ => none
  | .ok index =>
    match (generate Config.standard .plain index).run.run ⟨t, .empty⟩ with
    | (.ok report, w) => some (index, report, w)
    | (.error _, _) => none

/-- The schemas of a run, those that it lists and skips, and what it leaves on record under the name
of the shared runtime header. -/
def exListed (r : Index × RunReport × Workspace) :
    List Bytes × List Bytes × List Bytes × Option Bytes :=
  (r.1.names, r.2.1.failed.map FileFailure.schemaName, r.2.1.skipped,
    ((freshCache Config.standard .plain).onRecord r.2.2.tree).lookup runtimeOwner)

theorem of_exRun? {text : Bytes} {t : FileTree} {index : Index} {report : RunReport}
    {w : Workspace} (h : exRun? text t = some (index, report, w)) :
    Index.read text = .ok index ∧
      (generate Config.standard .plain index).run.run ⟨t, .empty⟩ = (.ok report, w) := by
  unfold exRun? at h
  split at h
  · exact nomatch h
  · next read =>
    split at h
    · next run =>
      cases h
      exact ⟨read, run⟩
    · exact nomatch h

theorem exListed_namesake :
    (exRun? exNamesake exOccupied).map exListed =
      some ([bytes "Pet", runtimeOwner], [runtimeOwner], [bytes "Pet", runtimeOwner],
        some (bytes "eb217aaa45311c98")) := by
  decide +kernel

theorem generate_record_exNamesake :
    ∃ index report w,
      Index.read exNamesake = .ok index ∧ Config.standard.incremental = true ∧
      (generate Config.standard .plain index).run.run ⟨exOccupied, .empty⟩ = (.ok report, w) ∧
      ∃ st u own hashes,
        (Build.buildAll index Config.standard.modelSettings).run.run Build.start = (.ok (), st) ∧
        (prepare Config.standard index).run.run ⟨exOccupied, .empty⟩ = (.ok (.ok (), st), u) ∧
        u.files = exOccupied ∧
        Recorded ⟨Config.standard, .plain, index, st.registry⟩
          ((freshCache Config.standard .plain).onRecord exOccupied) u report w.tree own hashes := by
  obtain ⟨⟨index, report, w⟩, ran, _⟩ := Option.map_eq_some_iff.mp exListed_namesake
  obtain ⟨read, run⟩ := of_exRun? ran
  exact ⟨index, report, w, read, rfl, run, generate_record read rfl run⟩

/-- The shared runtime header cannot be written over a file of the user. The report lists it under
the name of a schema that is up to date, is skipped and keeps its entry. -/
theorem not_recordsReport :
    ¬ RecordsReport exNamesake Config.standard .plain ⟨exOccupied, .empty⟩ := by
  intro records
  obtain ⟨⟨index, report, w⟩, ran, said⟩ := Option.map_eq_some_iff.mp exListed_namesake
  obtain ⟨read, run⟩ := of_exRun? ran
  obtain ⟨hashes, saved, record⟩ := records index report w read run
  simp only [exListed, Prod.mk.injEq] at said
  obtain ⟨names, listed, _, kept⟩ := said
  have wf := record.wellFormed (Cache.wellFormed_onRecord (freshCache Config.standard .plain) _)
  rw [Cache.onRecord_of_saved (c := freshCache Config.standard .plain) wf saved,
    record.entry] at kept
  -- The schema is declared and listed, so there would be no entry.
  have declared : runtimeOwner ∈ index.names := names ▸ List.mem_cons_of_mem _ List.mem_cons_self
  obtain ⟨s, found⟩ := Index.exists_find?_of_mem_names declared
  have named := Index.name_of_find? found
  rw [← named] at found kept
  rw [entryAfter_of_failed found (by rw [listed, named]; exact List.mem_cons_self)] at kept
  exact nomatch kept

end Run

end HeaderForge
