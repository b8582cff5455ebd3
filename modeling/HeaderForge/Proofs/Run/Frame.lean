import HeaderForge.Proofs.Cache
import HeaderForge.Proofs.Naming
import HeaderForge.Run
/-!
# What a run does to the files that were there

Several steps of a run write and remove files, on paths that can lead to the same place. Whatever
their order is and wherever the run fails, a file that was there is left as it was, or changed
between its markers only, or removed for a schema that it says it belongs to. Only where the disk is
full is a text cut off, and then it is one of a file that was to be changed between its markers.

1. `Run.rights` is what a run may change.
2. `Run.triple_generate`: every change of a run is one of those that it may make.
3. `Run.Fate` is what has become of a file, and `Run.Fate.push` what one more change makes of it.
4. `Run.generate_frame` is the result for whole runs.
-/

namespace HeaderForge

open Work

namespace Run

/-! ## What a run may do -/

/-- The cache that a run starts with, before a record is loaded. -/
def freshCache (config : Config) (style : Style) : Cache :=
  { Cache.new (Path.child config.projectDir Cache.fileName) style.name with
    forced := config.force || !config.incremental }

/-- The names on the record that a run loads. -/
def recordedNames (config : Config) (style : Style) (t : FileTree) : List Bytes :=
  if config.incremental then ((freshCache config style).onRecord t).map Prod.fst else []

/-- The places of the record and of the file beside it. -/
def recordPlaces (config : Config) (t : FileTree) : List Place :=
  let record := Path.child config.projectDir Cache.fileName
  [t.namedPlace record, t.namedPlace (record ++ bytes ".tmp")]

/-- A run writes for the schemas of the document, removes for those on record that are not among
them, and does both for the shared runtime header. -/
def rights (config : Config) (style : Style) (index : Index) (start : Disk) : Rights where
  markers := markers
  mayWrite name := name = runtimeOwner ∨ name ∈ index.names
  mayRemove name :=
    name = runtimeOwner ∨ (name ∈ recordedNames config style start.current ∧ name ∉ index.names)
  isApart p := p ∈ recordPlaces config start.current
  faults := start.faults

/-! ## Headers -/

/-- Whether paths of names in the folder of the headers lead to where they do for good. -/
def Ready (c : Context) (t : FileTree) : Prop :=
  ∀ name, Path.slash ∉ name → 0 ∉ name → t.Settled (Path.child c.config.outputDir name)

variable {c : Context} {start : Disk} {F : List (Option Fault)} {R : FileTree → FileTree → Prop}
  {P : FileTree → Prop}

/-- The changes that a run may make, which starts from a disk. -/
abbrev Changes (c : Context) (start : Disk) : FileTree → FileTree → Prop :=
  Change (rights c.config c.style c.index start)

theorem Ready.of_keeps {t u : FileTree} (ready : Ready c t) (keeps : FileTree.Keeps t u) :
    Ready c u :=
  fun name noSlash noZero => (ready name noSlash noZero).of_keeps keeps

theorem Ready.of_change {t u : FileTree} (ready : Ready c t) (change : Changes c start t u) :
    Ready c u :=
  ready.of_keeps change.keeps

theorem ready_of_makeFolders {t u : FileTree}
    (made : t.makeFolders c.config.outputDir = (none, u)) : Ready c u := by
  intro name noSlash noZero
  obtain ⟨proper, reached⟩ := FileTree.reached_of_makeFolders made
  exact (FileTree.anchored_child proper reached noSlash noZero).settled

theorem Ready.settled_target {t : FileTree} (ready : Ready c t) (name : Bytes) :
    t.Settled (c.target name) :=
  ready _ (Naming.slash_not_mem_headerFileName name) (Naming.zero_not_mem_headerFileName name)

theorem triple_makeOutputFolder :
    Triple start.faults (Changes c start) P (makeOutputFolder c) fun _ => Ready c := by
  refine (triple_makeFolders (Change.of_makeFolders · _) fun _ => triple_fail _ _ _).mono
    (fun _ h => h) ?_
  rintro _ u ⟨t, _, made⟩
  exact ready_of_makeFolders made

theorem triple_generateRuntime (report : RunReport) :
    Triple start.faults (Changes c start) (Ready c) (generateRuntime c report) fun _ _ => True := by
  unfold generateRuntime
  dsimp only
  split
  · have removal := Owned.triple_remove (F := start.faults)
      (r := rights c.config c.style c.index start)
      (Path.child c.config.outputDir Header.runtimeHeaderName) (Or.inl rfl)
    refine (removal.mono (fun _ _ => trivial) fun _ _ h => h).attempt.bind fun outcome => ?_
    split
    · exact triple_pure fun _ _ => trivial
    · exact (triple_write _).bind fun _ => triple_pure fun _ _ => trivial
    · exact triple_pure fun _ _ => trivial
  · have written := Owned.triple_write (r := rights c.config c.style c.index start)
      (Path.child c.config.outputDir Header.runtimeHeaderName)
      (Bytes.unlines (c.style.runtimeSupport c.render)) (Or.inl rfl)
    refine (written.mono (fun t ready => ?_) fun _ _ h => h).attempt.bind fun outcome => ?_
    · exact ready _ (by decide) (by decide)
    · split <;> exact triple_pure fun _ _ => trivial

/-- A header is looked for in its place, or where a file is. -/
theorem triple_locateTarget (cache : Cache) (name : Bytes) :
    Triple F R P (locateTarget c cache name) fun path t =>
      P t ∧ (path = c.target name ∨ ∃ text, t.textOf? path = some text) := by
  unfold locateTarget
  refine triple_tree fun t holds => ?_
  split
  · refine triple_pure ?_
    rintro _ rfl
    exact ⟨holds, Or.inl rfl⟩
  · refine (Owned.triple_findMoved _ _ _ _ _).bind fun found => ?_
    split
    · refine triple_pure ?_
      rintro _ ⟨rfl, _⟩
      exact ⟨holds, Or.inl rfl⟩
    · next moved =>
      refine (triple_write _).bind fun _ => triple_pure ?_
      rintro u ⟨rfl, there⟩
      exact ⟨holds, Or.inr (there moved rfl)⟩

/-- There a path leads to where it does for good. -/
theorem Ready.settled_located {t : FileTree} (ready : Ready c t) {name path : Bytes}
    (located : path = c.target name ∨ ∃ text, t.textOf? path = some text) : t.Settled path := by
  rcases located with rfl | ⟨text, held⟩
  · exact ready.settled_target name
  · exact FileTree.settled_of_textOf? held

theorem triple_isStale (cache : Cache) (name hash : Bytes) :
    Triple F R P (cache.isStale name hash) fun _ => P := by
  unfold Cache.isStale
  split
  · exact triple_pure fun _ h => h
  · split
    · exact (triple_write _).bind fun _ => triple_pure fun _ h => h
    · split <;> exact (triple_write _).bind fun _ => triple_pure fun _ h => h

theorem triple_isUpToDate (cache : Cache) (target name hash : Bytes) :
    Triple F R P (isUpToDate cache target name hash) fun _ => P := by
  refine triple_tree fun t h => ?_
  split
  · refine (triple_isStale cache name hash).bind fun _ => triple_pure ?_
    rintro _ rfl
    exact h
  · refine triple_pure ?_
    rintro _ rfl
    exact h

theorem triple_logOutcome (name path : Bytes) (outcome : WriteOutcome) :
    Triple F R P (logOutcome name path outcome) fun _ => P := by
  cases outcome with
  | created => exact triple_write _
  | updated => exact triple_write _
  | unchanged => exact triple_pure fun _ h => h

theorem triple_writeHeader {model : ClassModel} {name hash path : Bytes} (p : Progress)
    (named : name ∈ c.index.names) :
    Triple start.faults (Changes c start) (fun t => t.Settled path)
      (writeHeader c model name hash path p) fun q _ => p.cache.SameRecord q.cache := by
  unfold writeHeader
  split
  · exact (triple_write _).bind fun _ => triple_pure fun _ _ => ⟨rfl, rfl, rfl⟩
  · next body _ =>
    have written :=
      Owned.triple_write (r := rights c.config c.style c.index start) path body (Or.inr named)
    refine written.attempt.bind fun outcome => ?_
    split
    · exact triple_pure fun _ _ => ⟨rfl, rfl, rfl⟩
    · exact (triple_logOutcome _ _ _).bind fun _ => triple_pure fun _ _ => ⟨rfl, rfl, rfl⟩

theorem triple_generateSchema {s : NamedSchema} (p : Progress) (named : s.name ∈ c.index.names) :
    Triple start.faults (Changes c start) (Ready c) (generateSchema c s p) fun q t =>
      p.cache.SameRecord q.cache ∧ Ready c t := by
  have step : Triple start.faults (Changes c start) (Ready c) (generateSchema c s p) fun q _ =>
      p.cache.SameRecord q.cache := by
    unfold generateSchema
    split
    · exact triple_pure fun _ _ => ⟨rfl, rfl, rfl⟩
    · refine ((triple_locateTarget p.cache s.name).mono (fun _ h => h) fun _ _ h =>
        h.1.settled_located h.2).bind fun path => ?_
      refine (triple_isUpToDate p.cache path s.name (c.hash s)).bind fun upToDate => ?_
      split
      · exact triple_pure fun _ _ => ⟨rfl, rfl, rfl⟩
      · exact triple_writeHeader p named
  exact step.invariant (fun _ ready => ready) fun _ _ ready change => ready.of_change change

theorem triple_generateSchemas (schemas : List NamedSchema) (p : Progress)
    (named : ∀ s, s ∈ schemas → s.name ∈ c.index.names) :
    Triple start.faults (Changes c start) (Ready c) (generateSchemas c schemas p) fun q _ =>
      p.cache.SameRecord q.cache := by
  induction schemas generalizing p with
  | nil => exact triple_pure fun _ _ => ⟨rfl, rfl, rfl⟩
  | cons s rest ih =>
    refine (triple_generateSchema p (named s List.mem_cons_self)).bind fun q => ?_
    refine triple_of_fact fun same => ?_
    refine (ih q fun s later => named s (List.mem_cons_of_mem _ later)).mono (fun _ h => h) ?_
    exact fun _ _ later => same.trans later

theorem triple_removeStale (name : Bytes) (p : Progress)
    (may : (rights c.config c.style c.index start).mayRemove name) :
    Triple start.faults (Changes c start) P (removeStale c name p) fun q _ =>
      p.cache.SameRecord q.cache := by
  have removal := Owned.triple_remove (F := start.faults) (c.target name) may
  refine (removal.mono (fun _ _ => trivial) fun _ _ h => h).attempt.bind fun outcome => ?_
  split
  · exact triple_pure fun _ _ => ⟨rfl, rfl, rfl⟩
  · split
    · exact (triple_write _).bind fun _ => triple_pure fun _ _ => ⟨rfl, rfl, rfl⟩
    · exact triple_pure fun _ _ => ⟨rfl, rfl, rfl⟩

theorem triple_removeAllStale (names : List Bytes) (p : Progress)
    (may : ∀ name, name ∈ names → (rights c.config c.style c.index start).mayRemove name) :
    Triple start.faults (Changes c start) (fun _ => True) (removeAllStale c names p) fun q _ =>
      p.cache.SameRecord q.cache := by
  induction names generalizing p with
  | nil => exact triple_pure fun _ _ => ⟨rfl, rfl, rfl⟩
  | cons name rest ih =>
    refine (triple_removeStale name p (may name List.mem_cons_self)).bind fun q => ?_
    have later := ih q fun name later => may name (List.mem_cons_of_mem _ later)
    refine (triple_of_fact fun same => later.mono (fun _ h => h) ?_).mono (fun _ h => ⟨h, trivial⟩)
      fun _ _ h => h
    exact fun _ _ later => same.trans later

/-! ## Whole runs -/

theorem triple_openCache :
    Triple F R (fun u => u = start.current) (openCache c) fun cache _ =>
      cache.file = Path.child c.config.projectDir Cache.fileName ∧
        cache.previous.map Prod.fst = recordedNames c.config c.style start.current := by
  unfold openCache
  dsimp only
  split
  · next incremental =>
    refine (Cache.triple_load (freshCache c.config c.style) start.current).mono (fun _ h => h) ?_
    intro cache _ loaded
    refine ⟨loaded.file, ?_⟩
    rw [loaded.previous, recordedNames, if_pos incremental]
  · next whole =>
    refine triple_pure fun _ _ => ⟨rfl, ?_⟩
    rw [recordedNames, if_neg whole]
    rfl

/-- The names that a run removes are those that it may remove. -/
theorem mayRemove_of_mem_removed {cache : Cache} {name : Bytes}
    (previous : cache.previous.map Prod.fst = recordedNames c.config c.style start.current)
    (h : name ∈ cache.removed c.index.names) :
    (rights c.config c.style c.index start).mayRemove name := by
  obtain ⟨known, gone⟩ := List.mem_filter.mp h
  rw [previous] at known
  exact Or.inr ⟨known, by simpa using gone⟩

theorem isApart_of_keeps {cache : Cache} {u : FileTree}
    (file : cache.file = Path.child c.config.projectDir Cache.fileName)
    (keeps : FileTree.Keeps start.current u) :
    cache.IsApart (rights c.config c.style c.index start) u := by
  have record : cache.temporary = cache.file ++ bytes ".tmp" := rfl
  rw [Cache.IsApart, FileTree.namedPlace_of_keeps keeps, FileTree.namedPlace_of_keeps keeps, record,
    file]
  exact ⟨List.mem_cons_self, List.mem_cons_of_mem _ List.mem_cons_self⟩

theorem triple_generateFiles :
    Triple start.faults (Changes c start) (fun u => u = start.current) (generateFiles c)
      fun _ _ => True := by
  have keeps : ∀ t u, FileTree.Keeps start.current t → Changes c start t u →
      FileTree.Keeps start.current u := fun _ _ before change => before.trans change.keeps
  have both : ∀ t u, (Ready c t ∧ FileTree.Keeps start.current t) → Changes c start t u →
      Ready c u ∧ FileTree.Keeps start.current u :=
    fun t u before change => ⟨before.1.of_change change, keeps t u before.2 change⟩
  -- Every part keeps the folders that were there, so the record still has the place that it had.
  unfold generateFiles
  refine (triple_openCache.invariant ?_ keeps).bind fun cache => ?_
  · rintro _ rfl
    exact FileTree.Keeps.refl _
  refine triple_of_fact fun ⟨file, previous⟩ => ?_
  refine (triple_makeOutputFolder.invariant (fun _ h => h) keeps).bind fun _ => ?_
  have runtime : Triple start.faults (Changes c start)
      (fun t => Ready c t ∧ FileTree.Keeps start.current t)
      (generateRuntime c RunReport.empty) fun _ _ => True :=
    (triple_generateRuntime RunReport.empty).mono (fun _ h => h.1) fun _ _ h => h
  refine (runtime.invariant (fun _ h => h) both).bind fun report => triple_of_fact fun _ => ?_
  have schemas : Triple start.faults (Changes c start)
      (fun t => Ready c t ∧ FileTree.Keeps start.current t)
      (generateSchemas c c.index.named ⟨cache, report⟩) fun p _ => cache.SameRecord p.cache :=
    (triple_generateSchemas c.index.named ⟨cache, report⟩ fun s hs => List.mem_map_of_mem hs).mono
      (fun _ h => h.1) fun _ _ h => h
  refine (schemas.invariant (fun _ h => h) both).bind fun p => triple_of_fact fun same => ?_
  have may : ∀ name, name ∈ p.cache.removed c.index.names →
      (rights c.config c.style c.index start).mayRemove name := by
    intro name gone
    exact mayRemove_of_mem_removed (by rw [same.previous, previous]) gone
  have removal := (triple_removeAllStale (p.cache.removed c.index.names) p may).mono
    (fun t (_ : Ready c t ∧ FileTree.Keeps start.current t) => trivial) fun _ _ h => h
  refine (removal.invariant (fun _ h => h.2) keeps).bind fun q => triple_of_fact fun later => ?_
  have saved : Triple start.faults (Changes c start) (FileTree.Keeps start.current) q.cache.save
      fun _ _ => True := by
    refine (Cache.triple_save q.cache).mono (fun u kept => ?_) fun _ _ h => h
    exact isApart_of_keeps (by rw [later.file, same.file, file]) kept
  dsimp only
  split
  · exact saved.bind fun _ => triple_pure fun _ _ => trivial
  · exact triple_pure fun _ _ => trivial

theorem triple_logAll (lines : List LogLine) : Triple F R P (logAll lines) fun _ => P :=
  triple_of_files fun _ => rfl

theorem triple_logLint (found : Diagnostics) : Triple F R P (logLint found) fun _ => P := by
  unfold logLint
  dsimp only
  split
  · exact (triple_write _).bind fun _ => triple_logAll _
  · exact triple_logAll _

theorem triple_buildClasses (index : Index) (config : Config) :
    Triple F R P (buildClasses index config) fun _ => P := by
  unfold buildClasses
  exact (triple_logAll _).bind fun _ => triple_pure fun _ h => h

theorem triple_beforeFindings {α : Type} {Q : α → FileTree → Prop} {step : Work α}
    (h : Triple F R P step Q) (found : Diagnostics) : Triple F R P (beforeFindings found step) Q :=
  fun w holds => h w holds

theorem triple_logSummary (report : RunReport) (schemas : Nat) :
    Triple F R P (logSummary report schemas) fun _ => P := by
  unfold logSummary
  split <;> exact triple_write _

/-- Every change of a run is one of those that it may make. -/
theorem triple_generate (config : Config) (style : Style) (index : Index) (start : Disk) :
    Triple start.faults (Change (rights config style index start)) (fun u => u = start.current)
      (generate config style index) fun _ _ => True := by
  unfold generate
  dsimp only
  refine (triple_logLint (Lint.run index config.lint)).bind fun _ => ?_
  refine (triple_buildClasses index config).bind fun built => ?_
  split
  · exact (triple_logAll _).bind fun _ => triple_fail _ _ _
  · have files : Triple start.faults (Changes ⟨config, style, index, built.2.registry⟩ start)
        (fun u => u = start.current) _ _ := triple_generateFiles
    refine (triple_beforeFindings files _).bind fun report => ?_
    exact (triple_logSummary report _).bind fun _ => triple_pure fun _ _ => trivial

/-! ## What becomes of a file -/

/-- What has become of a file with a text: it has the text still, or it was removed when it carried
the identity of a schema that files may be removed for, or it has changed between its markers at
most and carried the identity of a schema that files may be written for. Such a change was cut off
if the disk was full. -/
inductive Fate (r : Rights) (p : Place) (text : Bytes) (d : Disk) : Prop
  | kept (still : d.current.textAt? p = some text)
  | removed {last name : Bytes} (gone : d.Became p (some last) none)
    (own : carries r.markers last name = true) (may : r.mayRemove name)
  | rewritten {new name : Bytes} (now : d.current.textAt? p = some new)
    (inside : Region.Rewritten r.markers text new) (own : carries r.markers text name = true)
    (may : r.mayWrite name)
  | cut {old whole name : Bytes} {room : Nat}
    (partly : d.Became p (some old) (some (whole.take room)))
    (before : old = text ∨ Region.Rewritten r.markers text old)
    (inside : Region.Rewritten r.markers text whole) (own : carries r.markers text name = true)
    (may : r.mayWrite name) (full : some (.full room) ∈ r.faults) (short : room < whole.length)

variable {r : Rights} {p : Place} {text : Bytes} {d later : Disk}

/-- A file whose tree is the same has the same fate. -/
theorem Fate.of_trees (fate : Fate r p text d) (same : later.trees = d.trees) :
    Fate r p text later := by
  have now : later.current = d.current := (List.cons.inj same).1
  have became : ∀ {old new}, d.Became p old new → later.Became p old new :=
    fun became => became.of_trees [] same
  cases fate with
  | kept still => exact .kept (now ▸ still)
  | removed gone own may => exact .removed (became gone) own may
  | rewritten here inside own may => exact .rewritten (now ▸ here) inside own may
  | cut partly before inside own may full short =>
    exact .cut (became partly) before inside own may full short

/-- One more change that is allowed leaves a file with one of these fates. -/
theorem Fate.push {u : FileTree} (fate : Fate r p text d) (files : ¬ r.isApart p)
    (change : Change r d.current u) (more : later.trees = u :: d.trees) :
    Fate r p text later := by
  have here := change.text p files
  have now : later.current = u := (List.cons.inj more).1
  have became : ∀ {old new}, d.Became p old new → later.Became p old new :=
    fun became => became.of_trees [u] more
  have step := Disk.became_of_trees p more
  cases fate with
  | removed gone own may => exact .removed (became gone) own may
  | cut partly before inside own may full short =>
    exact .cut (became partly) before inside own may full short
  | kept still =>
    rw [still] at here step
    generalize after : u.textAt? p = new at here step
    rw [← now] at after
    cases here with
    | kept => exact .kept after
    | merged may merged =>
      exact .rewritten after (Region.rewritten_of_merge merged) (Region.merge_of_some merged).1 may
    | cut may merged full short =>
      exact .cut step (Or.inl rfl) (Region.rewritten_of_merge merged)
        (Region.merge_of_some merged).1 may full short
    | removed may own => exact .removed step own may
  | rewritten before inside own may =>
    rw [before] at here step
    generalize after : u.textAt? p = new at here step
    rw [← now] at after
    cases here with
    | kept => exact .rewritten after inside own may
    | merged _ merged => exact .rewritten after (inside.merge merged) own may
    | cut _ merged full short =>
      exact .cut step (Or.inr inside) (inside.merge merged) own may full short
    | removed may' own' => exact .removed step own' may'

/-- So does any number of them. -/
theorem Fate.of_extends (fate : Fate r p text d) (files : ¬ r.isApart p)
    (grown : Disk.Extends (Change r) d later) : Fate r p text later :=
  grown.induct (S := Fate r p text) (fun _ _ fate same => fate.of_trees same)
    (fun _ _ _ fate change more => fate.push files change more) fate

/-- A document with one schema. -/
def exCatalogue : Index :=
  ⟨.openapi3, bytes "3.0.0",
    [⟨bytes "Pet", .primitive ⟨.string, [], [], [], false, false, true, .obj []⟩⟩]⟩

def exOwner : Place := [bytes "generated", bytes "owner.hpp"]
def exPet : Place := [bytes "generated", bytes "pet.hpp"]

/-- The header of a schema with nothing generated in it, between lines of the user. -/
def exEdited : Bytes :=
  bytes "// mine\n// schemagen-model: Pet\n// schemagen:begin\n// schemagen:end\n// mine too\n"

/-- A project with this header, and that of a schema that is gone from the document. -/
def exProject : FileTree :=
  ⟨[], [(Cache.fileName, .file (CacheRecord.text
      ⟨bytes "plain", [(bytes "Owner", bytes "1"), (bytes "Pet", bytes "2")]⟩)),
    (bytes "generated", .folder [(bytes "owner.hpp", .file (bytes "// schemagen-model: Owner\n")),
      (bytes "pet.hpp", .file exEdited)])]⟩

/-- The files after a run with these faults. -/
def exAfter (faults : List (Option Fault)) : Disk :=
  ((generate Config.standard .plain exCatalogue).run.run ⟨⟨exProject, [], faults⟩, .empty⟩).2.files

/-- The texts of both headers, and whether the second one was there all along. -/
def exTexts (d : Disk) : Option Bytes × Option Bytes × Bool :=
  (d.current.textAt? exOwner, d.current.textAt? exPet,
    d.trees.all fun t => (t.textAt? exPet).isSome)

def exGenerated : Bytes :=
  bytes "// mine\n// schemagen-model: Pet\n// schemagen:begin\n#pragma once\n\n" ++
    bytes "#include <nlohmann/json.hpp>\n#include <string>\n\nnamespace models \x7b\n\n" ++
    bytes "using Pet = std::string;\n\n\x7d // namespace models\n// schemagen:end\n// mine too\n"

theorem exTexts_exAfter : exTexts (exAfter []) = (none, some exGenerated, true) := by
  decide +kernel

/-- On a full disk the header ends where there is no more room. -/
example : (exAfter [some (.full 60)]).current.textAt? exPet = some (exGenerated.take 60) := by
  decide +kernel

end Run

end HeaderForge
