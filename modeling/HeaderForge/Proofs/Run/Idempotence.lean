import HeaderForge.Proofs.Run.Rest
/-!
# Running twice

A first run that lists no failure leaves the files at rest, so a second one changes nothing. There
is one exception. A schema can have the name that the shared runtime header is owned under, and then
both headers are one file. The first run ends with that of the schema in it. The second one puts the
shared runtime header back, and skips the schema as up to date.

1. `Run.TakesRuntime` and `Run.Undisputed` name the exception, and that there is none.
2. `Run.Generated` is what a first run leaves before it saves the record, and
   `Run.gives_generateFiles_atRest` is that the files are at rest after it.
3. `Run.generate_again` is the result for whole runs.
-/

namespace HeaderForge

namespace Naming

theorem suffix_headerFileName (schema : Bytes) : bytes ".hpp" <:+ headerFileName schema :=
  ⟨_, rfl⟩

theorem headerFileName_ne {name : Bytes} (other : ¬ bytes ".hpp" <:+ name) (schema : Bytes) :
    headerFileName schema ≠ name :=
  fun same => other (same ▸ suffix_headerFileName schema)

theorem isName_headerFileName (schema : Bytes) : Path.IsName (headerFileName schema) where
  whole := zero_not_mem_headerFileName schema
  plain := slash_not_mem_headerFileName schema
  proper := ⟨headerFileName_ne (by decide) schema, headerFileName_ne (by decide) schema,
    headerFileName_ne (by decide) schema⟩

end Naming

namespace FileTree

variable {t u : FileTree} {path text : Bytes}

/-- A path that leads to a file does so still where no file has gone. -/
theorem isSome_textOf?_of_keeps (keeps : Keeps t u)
    (stay : ∀ p, (t.textAt? p).isSome → (u.textAt? p).isSome) (h : (t.textOf? path).isSome) :
    (u.textOf? path).isSome := by
  cases placed : t.place path with
  | error e =>
    rw [textOf?, placed] at h
    cases h
  | ok p =>
    rw [textOf?_of_place placed] at h
    rw [textOf?_of_place ((settled_of_place placed u keeps).trans placed)]
    exact stay p h

end FileTree

namespace Run

open Work

variable {c : Context} {t u v : FileTree} {w : Workspace} {p : Progress}

/-! ## The folder of the headers -/

/-- Whether the folder of the headers was made. -/
structure FolderMade (c : Context) (t : FileTree) : Prop where
  ready : Ready c t
  named : t.Named
  folder : ∃ d, t.place c.config.outputDir = .ok d ∧ t.IsFolder d

theorem FolderMade.of_keeps (made : FolderMade c t) (keeps : FileTree.Keeps t u)
    (named : u.Named) : FolderMade c u := by
  obtain ⟨d, placed, folder⟩ := made.folder
  exact ⟨made.ready.of_keeps keeps, named, d,
    (FileTree.settled_of_place placed u keeps).trans placed, keeps.folder d folder⟩

/-- If the path of the folder is not looked up whole, all paths in it lead to the folder itself. -/
theorem FolderMade.textOf?_of_zero (made : FolderMade c t) (zero : 0 ∈ c.config.outputDir)
    (name : Bytes) : t.textOf? (Path.child c.config.outputDir name) = none := by
  obtain ⟨d, placed, folder⟩ := made.folder
  have same := FileTree.place_eq_of_lookedUp (t := t) (Path.lookedUp_child zero name)
  rw [FileTree.textOf?_of_place (same.trans placed)]
  cases text : t.textAt? d with
  | none => rfl
  | some _ => exact absurd folder (FileTree.not_isFolder_of_textAt? text)

/-- A file in the folder has its text still, where no file has changed that has its place. -/
theorem FolderMade.textOf?_eq {name : Bytes} (made : FolderMade c t) (keeps : FileTree.Keeps t u)
    (named : u.Named) (isName : Path.IsName name)
    (same : 0 ∉ c.config.outputDir →
      u.textAt? (t.namedPlace (Path.child c.config.outputDir name)) =
        t.textAt? (t.namedPlace (Path.child c.config.outputDir name))) :
    u.textOf? (Path.child c.config.outputDir name) =
      t.textOf? (Path.child c.config.outputDir name) := by
  by_cases zero : 0 ∈ c.config.outputDir
  · rw [made.textOf?_of_zero zero, (made.of_keeps keeps named).textOf?_of_zero zero]
  · exact FileTree.textOf?_of_keeps (made.ready name isName.plain isName.whole) keeps (same zero)

theorem gives_makeOutputFolder (named : w.tree.Named) :
    Gives (makeOutputFolder c) w fun _ u => FolderMade c u.tree := by
  refine (Owned.gives_makeFolders (fun _ _ => gives_fail _ _ _) w).mono fun _ u made => ?_
  have named' := named.makeFolders c.config.outputDir
  rw [made] at named'
  exact ⟨ready_of_makeFolders made, named', FileTree.place_of_makeFolders named made⟩

/-! ## The shared runtime header -/

/-- What a run leaves of the shared runtime header. -/
structure RuntimeDone (c : Context) (t : FileTree) : Prop extends FolderMade c t where
  atRest : RuntimeAtRest c (t.textOf? (runtimeTarget c))

theorem failed_noteFailed_ne_nil (r : RunReport) (name path : Bytes) (kind : FailureKind) :
    (r.noteFailed name path kind).failed ≠ [] :=
  List.append_ne_nil_of_right_ne_nil _ (List.cons_ne_nil _ _)

theorem gives_generateRuntime_done (made : FolderMade c w.tree) (r : RunReport) :
    Gives (generateRuntime c r) w fun r u => r.failed = [] → RuntimeDone c u.tree := by
  unfold generateRuntime
  dsimp only
  split
  · next none =>
    have done : ∀ u, Owned.Clears markers (runtimeTarget c) runtimeOwner w.tree u →
        RuntimeDone c u := fun u clears =>
      ⟨made.of_keeps clears.keeps (clears.named made.named),
        .unneeded (List.isEmpty_iff.mp none) clears.others⟩
    refine gives_attempt fun outcome v attempted => ?_
    split
    · exact Gives.pure fun fine => absurd fine (failed_noteFailed_ne_nil _ _ _ _)
    · have clears := Owned.gives_remove markers _ runtimeOwner w _ v attempted
      refine gives_after_write fun x files => Gives.pure fun _ => ?_
      have tree : x.tree = v.tree := congrArg Disk.current files
      exact tree ▸ done _ clears
    · exact Gives.pure fun _ => done _ (Owned.gives_remove markers _ runtimeOwner w _ v attempted)
  · next some =>
    have settled : w.tree.Settled (runtimeTarget c) := made.ready _ (by decide) (by decide)
    refine gives_attempt fun outcome v attempted => ?_
    split
    · exact Gives.pure fun fine => absurd fine (failed_noteFailed_ne_nil _ _ _ _)
    · refine Gives.pure fun _ => ?_
      obtain ⟨text, merged, puts⟩ := Owned.gives_write settled _ v attempted
      exact ⟨made.of_keeps puts.keeps (puts.named made.named),
        .present (by simpa using some) puts.text fun again => Region.merge_again merged⟩

/-! ## Headers -/

/-- What the steps of these schemas do to the files, where each of them has generated its header. -/
structure Wrote (c : Context) (schemas : List NamedSchema) (t u : FileTree) : Prop where
  keeps : FileTree.Keeps t u
  named : t.Named → u.Named
  header : ∀ s, s ∈ schemas → (c.registry.findSchema? s.name).isSome →
    (u.textOf? (c.target s.name)).isSome
  stay : ∀ p, (t.textAt? p).isSome → (u.textAt? p).isSome
  other : ∀ p, (∀ s, s ∈ schemas → (c.registry.findSchema? s.name).isSome →
    p ≠ t.namedPlace (c.target s.name)) → u.textAt? p = t.textAt? p

namespace Wrote

theorem nil (c : Context) (t : FileTree) : Wrote c [] t t where
  keeps := .refl t
  named := id
  header _ member := nomatch member
  stay _ := id
  other _ _ := rfl

variable {s : NamedSchema} {schemas : List NamedSchema}

theorem of_superseded (none : c.registry.findSchema? s.name = none) (t : FileTree) :
    Wrote c [s] t t where
  keeps := .refl t
  named := id
  header other member class_ := by
    rw [List.mem_singleton.mp member, none] at class_
    exact nomatch class_
  stay _ := id
  other _ _ := rfl

theorem of_puts {text : Bytes} (class_ : (c.registry.findSchema? s.name).isSome)
    (puts : FileTree.Puts (c.target s.name) text t u) : Wrote c [s] t u where
  keeps := puts.keeps
  named := puts.named
  header other member _ := by
    rw [List.mem_singleton.mp member, puts.text]
    rfl
  stay p there := by
    by_cases here : p = t.namedPlace (c.target s.name)
    · rw [here, ← FileTree.namedPlace_of_keeps puts.keeps, FileTree.textAt?_of_textOf? puts.text]
      rfl
    · rwa [puts.other p here]
  other p apart := puts.other p (apart s List.mem_cons_self class_)

theorem cons (first : Wrote c [s] t u) (later : Wrote c schemas u v) :
    Wrote c (s :: schemas) t v where
  keeps := first.keeps.trans later.keeps
  named named := later.named (first.named named)
  header other member class_ := by
    rcases List.mem_cons.mp member with here | member
    · exact FileTree.isSome_textOf?_of_keeps later.keeps later.stay
        (first.header other (List.mem_singleton.mpr here) class_)
    · exact later.header other member class_
  stay p there := later.stay p (first.stay p there)
  other p apart := by
    rw [later.other p, first.other p]
    · intro other member class_
      exact apart other (List.mem_cons.mpr (Or.inl (List.mem_singleton.mp member))) class_
    · intro other member class_
      rw [FileTree.namedPlace_of_keeps first.keeps]
      exact apart other (List.mem_cons_of_mem s member) class_

end Wrote

/-- Without a record every header is out of date. -/
theorem gives_isUpToDate_fresh {cache : Cache} (fresh : cache.previous = [])
    (target name hash : Bytes) (w : Workspace) :
    Gives (isUpToDate cache target name hash) w fun upToDate u =>
      upToDate = false ∧ u.tree = w.tree := by
  have stale : Gives (cache.isStale name hash) w fun stale u => stale = true ∧ u.tree = w.tree := by
    unfold Cache.isStale
    rw [fresh]
    split
    · exact Gives.pure ⟨rfl, rfl⟩
    · exact gives_after_write fun u files => Gives.pure ⟨rfl, congrArg Disk.current files⟩
  refine gives_tree ?_
  split
  · exact stale.bind fun _ u ⟨out, same⟩ => Gives.pure ⟨by rw [out]; rfl, same⟩
  · exact Gives.pure ⟨rfl, rfl⟩

theorem gives_generateSchema_fresh {s : NamedSchema} (ready : Ready c w.tree)
    (fresh : p.cache.previous = []) :
    Gives (generateSchema c s p) w fun q u => q.report.failed = [] →
      p.report.failed = [] ∧ Wrote c [s] w.tree u.tree := by
  unfold generateSchema
  split
  · next superseded => exact Gives.pure fun fine => ⟨fine, .of_superseded superseded _⟩
  · next model found =>
    have class_ : (c.registry.findSchema? s.name).isSome := Option.isSome_of_eq_some found
    have located : Gives (locateTarget c p.cache s.name) w fun path u =>
        path = c.target s.name ∧ u = w := by
      refine gives_tree ?_
      rw [if_pos (by simp [fresh])]
      exact Gives.pure ⟨rfl, rfl⟩
    refine located.bind fun path v ⟨here, start⟩ => ?_
    subst here start
    refine (gives_isUpToDate_fresh fresh _ _ _ v).bind fun upToDate x ⟨outdated, same⟩ => ?_
    subst outdated
    rw [if_neg (by decide), ← same]
    unfold writeHeader
    split
    · exact gives_after_write fun _ _ =>
        Gives.pure fun fine => absurd fine (failed_noteFailed_ne_nil _ _ _ _)
    · refine gives_attempt fun outcome y attempted => ?_
      split
      · exact Gives.pure fun fine => absurd fine (failed_noteFailed_ne_nil _ _ _ _)
      · next outcome =>
        have settled := (same ▸ ready).settled_target s.name
        obtain ⟨text, _, puts⟩ := Owned.gives_write settled _ y attempted
        have logged : Triple y.files.faults (Changes c y.files) (fun t => t = y.tree)
            (logOutcome s.name (c.target s.name) outcome) fun _ t => t = y.tree :=
          triple_logOutcome _ _ _
        refine (logged.gives rfl).bind fun _ z tree => Gives.pure fun fine => ?_
        rw [tree]
        exact ⟨(RunReport.failed_note _ _ _).symm.trans fine, .of_puts class_ puts⟩

theorem gives_generateSchemas_fresh {schemas : List NamedSchema} (ready : Ready c w.tree)
    (members : ∀ s, s ∈ schemas → s ∈ c.index.named) (fresh : p.cache.previous = []) :
    Gives (generateSchemas c schemas p) w fun q u => q.report.failed = [] →
      p.report.failed = [] ∧ Wrote c schemas w.tree u.tree := by
  induction schemas generalizing p w with
  | nil => exact Gives.pure fun fine => ⟨fine, .nil c w.tree⟩
  | cons s later ih =>
    obtain ⟨member, members⟩ := List.forall_mem_cons.mp members
    refine (Gives.run (generateSchema c s p) w).bind fun q v ran => ?_
    have step := gives_generateSchema_fresh ready fresh q v ran
    have described : Triple w.files.faults (Changes c w.files) (Ready c) (generateSchema c s p) _ :=
      triple_generateSchema p (List.mem_map_of_mem member)
    obtain ⟨record, ready'⟩ := described.gives ready q v ran
    refine (ih ready' members (record.previous.trans fresh)).mono fun r u wrote fine => ?_
    obtain ⟨fine, wrote⟩ := wrote fine
    obtain ⟨fine, first⟩ := step fine
    exact ⟨fine, first.cons wrote⟩

/-! ## First runs -/

/-- Whether the header of a schema with a class has the name of the shared runtime header. -/
def TakesRuntime (c : Context) (s : NamedSchema) : Prop :=
  (c.registry.findSchema? s.name).isSome ∧
    Naming.headerFileName s.name = Header.runtimeHeaderName

/-- What a first run that lists no failure leaves before it saves the record. -/
structure Generated (c : Context) (t : FileTree) : Prop extends FolderMade c t where
  header : ∀ s, s ∈ c.index.named → (c.registry.findSchema? s.name).isSome →
    (t.textOf? (c.target s.name)).isSome
  runtime : (∀ s, s ∈ c.index.named → ¬ TakesRuntime c s) →
    RuntimeAtRest c (t.textOf? (runtimeTarget c))

/-- Whether the header of no schema is taken for the shared runtime header: there is none with its
name, or the shared runtime header is not needed and no file there carries its identity. -/
inductive Undisputed (c : Context) (t : FileTree) : Prop
  | apart (names : ∀ s, s ∈ c.index.named → ¬ TakesRuntime c s)
  | unneeded (none : c.style.runtimeSupport c.render = [])
      (others : ∀ text, t.textOf? (runtimeTarget c) = some text →
        carries markers text runtimeOwner = false)

theorem isName_runtimeHeaderName : Path.IsName Header.runtimeHeaderName :=
  ⟨by decide, by decide, by decide⟩

theorem RuntimeDone.generated (done : RuntimeDone c t) (wrote : Wrote c c.index.named t u) :
    Generated c u where
  toFolderMade := done.of_keeps wrote.keeps (wrote.named done.named)
  header := wrote.header
  runtime apart := by
    rw [done.textOf?_eq wrote.keeps (wrote.named done.named) isName_runtimeHeaderName fun whole => ?_]
    · exact done.atRest
    · refine wrote.other _ fun s member class_ => ?_
      exact t.namedPlace_child_ne whole whole isName_runtimeHeaderName
        (Naming.isName_headerFileName s.name) fun same => apart s member ⟨class_, same.symm⟩

/-- Saving the record leaves the other files, so they are at rest then. -/
theorem Generated.atRest {cache : Cache} {report : RunReport} {hashes : List (Bytes × Bytes)}
    (generated : Generated c t) (whole : 0 ∉ c.config.projectDir)
    (same : (freshCache c.config c.style).SameRecord cache) (saves : cache.SavesAlone t u)
    (recorded : Recorded c [] w report u [] hashes) (undisputed : Undisputed c u) :
    AtRest c u := by
  have file : cache.file = Path.child c.config.projectDir Cache.fileName := same.file
  -- No header has the name of the record or of the file beside it.
  have stays : ∀ name, Path.IsName name → bytes ".hpp" <:+ name →
      u.textOf? (Path.child c.config.outputDir name) =
        t.textOf? (Path.child c.config.outputDir name) := by
    intro name isName ending
    refine generated.textOf?_eq saves.keeps saves.named isName fun whole' => saves.other _ ?_ ?_
    · rw [Cache.temporary_eq file]
      refine t.namedPlace_child_ne whole' whole isName Cache.isName_temporary ?_
      rintro rfl
      exact absurd ending (by decide)
    · rw [file]
      refine t.namedPlace_child_ne whole' whole isName Cache.isName_fileName ?_
      rintro rfl
      exact absurd ending (by decide)
  refine ⟨generated.ready.of_keeps saves.keeps, ?_, fun s member class_ => ?_, ?_, ?_, ?_⟩
  · cases undisputed with
    | apart names =>
      rw [stays _ isName_runtimeHeaderName (by decide)]
      exact generated.runtime names
    | unneeded none others => exact .unneeded none others
  · rw [Context.target, stays _ (Naming.isName_headerFileName s.name)
      (Naming.suffix_headerFileName s.name)]
    exact generated.header s member class_
  · rw [recorded.loads]
    exact recorded.record
  · rw [recorded.loads]
    exact recorded.saved
  · have beside : cache.temporary = (freshCache c.config c.style).temporary := by
      rw [Cache.temporary, same.file, Cache.temporary]
    rw [← beside, FileTree.namedPlace_of_keeps saves.keeps]
    exact saves.gone

section

variable (incremental : c.config.incremental = true) (unforced : c.config.force = false)

include incremental unforced

theorem gives_upToSave (named : w.tree.Named)
    (unrecorded : (freshCache c.config c.style).onRecord w.tree = []) :
    Gives (upToSave c) w fun p u => (freshCache c.config c.style).SameRecord p.cache ∧
      (p.report.failed = [] → Generated c u.tree) := by
  have opened := (triple_openCache_again (F := w.files.faults) (R := fun t u => u = t)
    (t := w.tree) incremental unforced).invariant (S := fun u => u = w.tree) (fun _ h => h)
      fun _ _ start same => same.trans start
  unfold upToSave beginning
  simp only [bind_assoc, pure_bind]
  refine (opened.gives rfl).bind fun cache v ⟨reuses, start⟩ => ?_
  have loaded := reuses.loaded
  rw [unrecorded] at loaded
  refine (gives_makeOutputFolder (start ▸ named)).bind fun _ x made => ?_
  -- The runtime header may fail, which the report tells in the end, and leaves the folder as it is.
  refine (Gives.run (generateRuntime c RunReport.empty) x).bind fun report y ran => ?_
  have runtime := gives_generateRuntime_done made RunReport.empty report y ran
  have described : Triple x.files.faults (Changes c x.files) (Ready c)
      (generateRuntime c RunReport.empty) _ := triple_generateRuntime RunReport.empty
  obtain ⟨-, ready⟩ := (described.invariant (fun _ h => h)
    fun _ _ ready change => ready.of_change change).gives made.ready report y ran
  refine (Gives.run (generateSchemas c c.index.named ⟨cache, report⟩) y).bind fun q z ran => ?_
  have wrote := gives_generateSchemas_fresh ready (fun _ member => member)
    (p := ⟨cache, report⟩) loaded.previous q z ran
  have described : Triple y.files.faults (Changes c y.files) (Ready c)
      (generateSchemas c c.index.named ⟨cache, report⟩) _ :=
    triple_generateSchemas _ _ fun s member => List.mem_map_of_mem member
  have same := described.gives ready q z ran
  have removed : q.cache.removed c.index.names = [] := by
    rw [Cache.removed, same.previous, loaded.previous]
    rfl
  rw [removed]
  refine Gives.pure ⟨⟨?_, ?_, ?_⟩, fun fine => ?_⟩
  · exact same.file.trans loaded.file
  · exact same.style.trans loaded.style
  · exact same.previous.trans loaded.previous
  · obtain ⟨fine, wrote⟩ := wrote fine
    exact (runtime fine).generated wrote

theorem gives_generateFiles_atRest (declared : c.index.Declared) (named : w.tree.Named)
    (unrecorded : (freshCache c.config c.style).onRecord w.tree = []) :
    Gives (generateFiles c) w fun report u =>
      report.failed = [] → Undisputed c u.tree → AtRest c u.tree := by
  intro report u ran fine undisputed
  obtain ⟨own, hashes, recorded⟩ := gives_generateFiles incremental declared w report u ran
  rw [unrecorded] at recorded
  obtain ⟨-, rfl⟩ := List.append_eq_nil_iff.mp (recorded.listed.symm.trans fine)
  rw [generateFiles_eq_upToSave] at ran
  obtain ⟨p, v, reached, ran⟩ := ok_of_run_bind ran
  rw [if_pos incremental] at ran
  obtain ⟨_, x, saved, ended⟩ := ok_of_run_bind ran
  cases ended
  obtain ⟨same, generated⟩ := gives_upToSave incremental unforced named unrecorded p v reached
  have generated := generated fine
  obtain ⟨whole, saves⟩ := Cache.gives_save_alone same.file generated.named _ u saved
  exact generated.atRest whole same saves recorded undisputed

end

/-- A run that returns a report has brought all files up to date. -/
theorem exists_run_generateFiles {config : Config} {style : Style} {index : Index}
    {start : Workspace} {report : RunReport}
    (run : (generate config style index).run.run start = (.ok report, w)) :
    ∃ v listed x, v.tree = start.tree ∧
      (generateFiles (contextOf config style index)).run.run v = (.ok listed, x) ∧
      w.tree = x.tree ∧ report.failed = listed.failed := by
  rw [generate_eq] at run
  obtain ⟨⟨outcome, s⟩, v, prepared, run⟩ := ok_of_run_bind run
  obtain ⟨built, files⟩ := gives_prepare config index start _ v prepared
  unfold contextOf
  rw [← built]
  dsimp only at run
  split at run
  · obtain ⟨_, _, _, run⟩ := ok_of_run_bind run
    exact (gives_fail (Q := fun _ _ => False) _ _ _ _ _ run).elim
  · obtain ⟨listed, x, ran, run⟩ := ok_of_run_bind run
    obtain ⟨_, y, summed, run⟩ := ok_of_run_bind run
    cases run
    obtain ⟨z, ran, same⟩ := gives_beforeFindings
      (Q := fun listed u => ∃ z,
        (generateFiles ⟨config, style, index, s.registry⟩).run.run v = (.ok listed, z) ∧
          z.tree = u)
      (fun listed z ran => ⟨z, ran, rfl⟩) s.diagnostics listed x ran
    have kept := gives_logSummary _ _ _ _ _ summed
    exact ⟨v, listed, z, congrArg Disk.current files, ran,
      (congrArg Disk.current kept).trans same.symm, rfl⟩

/-! ## Running twice -/

/-- Where nothing is on record, as in an empty folder, and a run returns a report without failures,
a second one leaves every file with the text that it had after the first, unless the header of a
schema is taken for the shared runtime header. The second run may even fail, and only if removing a
file is refused to it may there be one more beside the record. -/
theorem generate_again {text : Bytes} {config : Config} {style : Style} {index : Index}
    {start : Workspace} {report : RunReport} {w : Workspace}
    (read : Index.read text = .ok index) (incremental : config.incremental = true)
    (unforced : config.force = false) (named : start.tree.Named)
    (unrecorded : (freshCache config style).onRecord start.tree = [])
    (run : (generate config style index).run.run start = (.ok report, w))
    (fine : report.failed = []) (undisputed : Undisputed (contextOf config style index) w.tree)
    (faults : List (Option Fault)) (log : Log) (p : Place)
    (permitted : p = w.tree.namedPlace (freshCache config style).temporary →
      ∀ e, some (.refused e) ∉ faults) :
    ((generate config style index).run.run ⟨⟨w.tree, [], faults⟩, log⟩).2.tree.textAt? p =
      w.tree.textAt? p := by
  have declared := Index.declared_of_read read
  obtain ⟨v, listed, x, same, ran, after, failed⟩ := exists_run_generateFiles run
  rw [← same] at named unrecorded
  have files := gives_generateFiles_atRest (c := contextOf config style index) incremental unforced
    declared named unrecorded listed x ran (failed.symm.trans fine)
  rw [← after] at files
  have again : Leaves (generate config style index) ⟨⟨w.tree, [], faults⟩, log⟩ _ :=
    leaves_generate (files undisputed) incremental unforced declared
  exact again p permitted

/-- A document with a schema that refers to itself, and so needs the shared runtime header. -/
def exPets : Bytes :=
  (Node.obj [(bytes "swagger", .str (bytes "2.0")), (bytes "definitions", .obj
    [(bytes "Pet", .obj [(bytes "properties", .obj
        [(bytes "mate", .obj [(bytes "$ref", .str (bytes "Pet"))])])])])]).toJson

def exEmpty : FileTree := ⟨[], []⟩

theorem named_exEmpty : exEmpty.Named := by
  intro p there
  cases p with
  | nil => exact .nil
  | cons name p => exact nomatch there

theorem exRun?_exPets :
    (exRun? exPets exEmpty).map (fun r => (r.1.names, r.2.1.failed)) =
      some ([bytes "Pet"], []) := by
  decide +kernel

theorem generate_again_exPets :
    ∃ index report w,
      Index.read exPets = .ok index ∧ Config.standard.incremental = true ∧
      Config.standard.force = false ∧ exEmpty.Named ∧
      (freshCache Config.standard .plain).onRecord exEmpty = [] ∧
      (generate Config.standard .plain index).run.run ⟨exEmpty, .empty⟩ = (.ok report, w) ∧
      report.failed = [] ∧ Undisputed (contextOf Config.standard .plain index) w.tree ∧
      ∀ p, ((generate Config.standard .plain index).run.run ⟨w.tree, .empty⟩).2.tree.textAt? p =
        w.tree.textAt? p := by
  obtain ⟨⟨index, report, w⟩, ran, said⟩ := Option.map_eq_some_iff.mp exRun?_exPets
  obtain ⟨read, run⟩ := of_exRun? ran
  obtain ⟨names, fine⟩ := Prod.mk.inj said
  have undisputed : Undisputed (contextOf Config.standard .plain index) w.tree := by
    refine .apart fun s member takes => ?_
    have name : s.name ∈ index.names := List.mem_map_of_mem member
    rw [names, List.mem_singleton] at name
    exact absurd takes.2 (by rw [name]; decide)
  have named : (⟨exEmpty, .empty⟩ : Workspace).tree.Named := named_exEmpty
  exact ⟨index, report, w, read, rfl, rfl, named, rfl, run, fine, undisputed, fun p =>
    generate_again read rfl rfl named rfl run fine undisputed [] .empty p
      fun _ _ => List.not_mem_nil⟩

end Run

end HeaderForge
