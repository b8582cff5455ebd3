import HeaderForge.Proofs.Cache.Saving
import HeaderForge.Proofs.Run.Record
/-!
# Runs that change nothing

Files are at rest for a document where the record has the current hash of every schema with a class
and nothing else, every header is there, and the shared runtime header is as it would be written. A
run skips all schemas then, and whatever else it does, whether it fails or not, changes no text but
that of the file beside the record.

1. `Run.AtRest` says when files are at rest.
2. `Run.AtRest.triple_upToSave` and `Cache.leaves_save_again` are the two parts of such a run.
3. `Run.Spared` says what is spared, and `Run.leaves_generate` is the result for whole runs.
-/

namespace HeaderForge

namespace Cache

open Work

variable {F : List (Option Fault)} {R : FileTree → FileTree → Prop} {P : FileTree → Prop}

/-- Taking out the entry of a name that has none changes nothing. -/
theorem drop_eq_self {c : Cache} {name : Bytes} (none : c.pending.lookup name = none) :
    c.drop name = c := by
  have all : ∀ entry, entry ∈ c.pending → decide (entry.1 ≠ name) = true := by
    intro entry member
    have other : name ≠ entry.1 := by simpa using List.lookup_eq_none_iff.mp none entry member
    exact decide_eq_true (Ne.symm other)
  rw [drop, List.filter_eq_self.mpr all]

theorem triple_isStale_again {c : Cache} {name hash : Bytes} (unforced : c.forced = false)
    (known : c.previous.lookup name = some hash) :
    Triple F R P (c.isStale name hash) fun stale t => stale = false ∧ P t := by
  rw [isStale, if_neg (by simp [unforced]), known]
  dsimp only
  rw [if_pos rfl]
  exact (triple_write _).bind fun _ => triple_pure fun _ h => ⟨rfl, h⟩

end Cache

namespace Run

open Work

/-! ## Files at rest -/

/-- Where the shared runtime header is generated. -/
abbrev runtimeTarget (c : Context) : Bytes :=
  Path.child c.config.outputDir Header.runtimeHeaderName

/-- Whether a run leaves the text that the file of the shared runtime header has, if it has one. -/
inductive RuntimeAtRest (c : Context) (text? : Option Bytes) : Prop
  | unneeded (none : c.style.runtimeSupport c.render = [])
      (others : ∀ text, text? = some text → carries markers text runtimeOwner = false)
  | present {text : Bytes} (some : c.style.runtimeSupport c.render ≠ []) (held : text? = .some text)
      (same : ∀ again, Region.merge markers (.some text) runtimeOwner
        (Bytes.unlines (c.style.runtimeSupport c.render)) = .ok again → again = text)

/-- What does not change during a run for a document. -/
def contextOf (config : Config) (style : Style) (index : Index) : Context :=
  ⟨config, style, index,
    ((Build.buildAll index config.modelSettings).run.run Build.start).2.registry⟩

/-- Whether the files are as a run for a document leaves them where it finds them like this. -/
structure AtRest (c : Context) (t : FileTree) : Prop where
  ready : Ready c t
  runtime : RuntimeAtRest c (t.textOf? (runtimeTarget c))
  header : ∀ s, s ∈ c.index.named → (c.registry.findSchema? s.name).isSome →
    (t.textOf? (c.target s.name)).isSome
  record : OnRecord c [] [] ((freshCache c.config c.style).onRecord t)
  saved : t.textOf? (freshCache c.config c.style).file =
    some (CacheRecord.text ⟨c.style.name, (freshCache c.config c.style).onRecord t⟩)
  alone : t.textAt? (t.namedPlace (freshCache c.config c.style).temporary) = none

variable {c : Context} {t : FileTree} {F : List (Option Fault)}

/-- Whether a cache goes on from the record in a tree, for which not all files are out of date. -/
structure Reuses (c : Context) (t : FileTree) (cache : Cache) : Prop where
  loaded : (freshCache c.config c.style).LoadedFrom ((freshCache c.config c.style).onRecord t) cache
  unforced : cache.forced = false

/-! ## The steps of a run -/

theorem triple_openCache_again {R : FileTree → FileTree → Prop}
    (incremental : c.config.incremental = true) (unforced : c.config.force = false) :
    Triple F R (fun u => u = t) (openCache c) fun cache _ => Reuses c t cache := by
  unfold openCache
  dsimp only
  rw [if_pos incremental]
  refine (Cache.triple_load (freshCache c.config c.style) t).mono (fun _ h => h) ?_
  intro cache _ loaded
  refine ⟨loaded, loaded.forced.trans ?_⟩
  simp [freshCache, incremental, unforced]

theorem triple_makeOutputFolder_again :
    Triple F FileTree.Grows (FileTree.Grows t) (makeOutputFolder c) fun _ => FileTree.Grows t := by
  have made : Triple F FileTree.Grows (FileTree.Grows t) (makeOutputFolder c) _ :=
    triple_makeFolders (FileTree.grows_makeFolders · _) fun _ => triple_fail _ _ _
  refine (made.invariant (fun _ h => h) fun _ _ => FileTree.Grows.trans).mono (fun _ h => h) ?_
  exact fun _ _ h => h.2

namespace AtRest

variable (rest : AtRest c t)

include rest

theorem triple_generateRuntime (r : RunReport) :
    Triple F FileTree.Grows (FileTree.Grows t) (generateRuntime c r) fun _ _ => True := by
  have stays : ∀ u, FileTree.Grows t u →
      u.textOf? (runtimeTarget c) = t.textOf? (runtimeTarget c) :=
    fun u grows => FileTree.textOf?_of_grows (rest.ready _ (by decide) (by decide)) grows
  unfold generateRuntime
  dsimp only
  cases rest.runtime with
  | unneeded none others =>
    rw [if_pos (List.isEmpty_iff.mpr none)]
    have removal : Triple F FileTree.Grows (FileTree.Grows t)
        (Owned.remove markers (runtimeTarget c) runtimeOwner) fun _ => FileTree.Grows t :=
      Owned.triple_remove_again fun u grows text held =>
        others text ((stays u grows).symm.trans held)
    refine removal.attempt.bind fun outcome => ?_
    split
    · exact triple_pure fun _ _ => trivial
    · exact (triple_write _).bind fun _ => triple_pure fun _ _ => trivial
    · exact triple_pure fun _ _ => trivial
  | present some held same =>
    rw [if_neg (by simpa using some)]
    have written : Triple F FileTree.Grows (FileTree.Grows t)
        (Owned.write markers (runtimeTarget c) runtimeOwner
          (Bytes.unlines (c.style.runtimeSupport c.render))) fun _ => FileTree.Grows t :=
      Owned.triple_write_again (fun u grows => (stays u grows).trans held) same
    refine written.attempt.bind fun outcome => ?_
    split <;> exact triple_pure fun _ _ => trivial

theorem holds_target {s : NamedSchema} (member : s ∈ c.index.named)
    (class_ : (c.registry.findSchema? s.name).isSome) {u : FileTree} (grows : FileTree.Grows t u) :
    u.holds (c.target s.name) = true := by
  refine FileTree.holds_of_textOf? ?_
  rw [FileTree.textOf?_of_grows (rest.ready.settled_target s.name) grows]
  exact rest.header s member class_

theorem triple_locateTarget {s : NamedSchema} (member : s ∈ c.index.named)
    (class_ : (c.registry.findSchema? s.name).isSome) (cache : Cache) :
    Triple F FileTree.Grows (FileTree.Grows t) (locateTarget c cache s.name) fun path u =>
      path = c.target s.name ∧ FileTree.Grows t u := by
  refine triple_tree fun u grows => ?_
  rw [if_pos (by simp [rest.holds_target member class_ grows])]
  refine triple_pure ?_
  rintro _ rfl
  exact ⟨rfl, grows⟩

theorem triple_isUpToDate {s : NamedSchema} (member : s ∈ c.index.named)
    (class_ : (c.registry.findSchema? s.name).isSome) {cache : Cache} {hash : Bytes}
    (unforced : cache.forced = false) (known : cache.previous.lookup s.name = some hash) :
    Triple F FileTree.Grows (FileTree.Grows t) (isUpToDate cache (c.target s.name) s.name hash)
      fun fresh u => fresh = true ∧ FileTree.Grows t u := by
  refine triple_tree fun u grows => ?_
  rw [if_pos (rest.holds_target member class_ grows)]
  refine (Cache.triple_isStale_again unforced known).bind fun stale => triple_pure ?_
  rintro _ ⟨rfl, rfl⟩
  exact ⟨rfl, grows⟩

/-- A schema is skipped, or has no entry that could be taken out. -/
theorem triple_generateSchema (declared : c.index.Declared) {s : NamedSchema}
    (member : s ∈ c.index.named) {p : Progress} (reuses : Reuses c t p.cache) :
    Triple F FileTree.Grows (FileTree.Grows t) (generateSchema c s p) fun q _ =>
      q.cache = p.cache := by
  have entry := rest.record.entry s.name
  unfold generateSchema
  split
  · next superseded =>
    rw [entryAfter_of_superseded (declared.find?_of_mem member) superseded,
      ← reuses.loaded.pending] at entry
    exact triple_pure fun _ _ => Cache.drop_eq_self entry
  · next model found =>
    have class_ : (c.registry.findSchema? s.name).isSome := Option.isSome_of_eq_some found
    rw [entryAfter_of_class (declared.find?_of_mem member) class_,
      ← reuses.loaded.previous] at entry
    refine (rest.triple_locateTarget member class_ p.cache).bind fun path => ?_
    refine triple_of_fact fun located => ?_
    subst located
    refine (rest.triple_isUpToDate member class_ reuses.unforced entry).bind fun fresh => ?_
    refine triple_of_fact fun upToDate => ?_
    rw [if_pos upToDate]
    exact triple_pure fun _ _ => rfl

theorem triple_generateSchemas (declared : c.index.Declared) {schemas : List NamedSchema}
    (members : ∀ s, s ∈ schemas → s ∈ c.index.named) {p : Progress}
    (reuses : Reuses c t p.cache) :
    Triple F FileTree.Grows (FileTree.Grows t) (generateSchemas c schemas p) fun q _ =>
      q.cache = p.cache := by
  induction schemas generalizing p with
  | nil => exact triple_pure fun _ _ => rfl
  | cons s later ih =>
    obtain ⟨member, members⟩ := List.forall_mem_cons.mp members
    have step := (rest.triple_generateSchema (F := F) declared member reuses).invariant
      (fun _ h => h) fun _ _ => FileTree.Grows.trans
    refine step.bind fun q => triple_of_fact fun same => ?_
    refine (ih members (same ▸ reuses)).mono (fun _ h => h) fun _ _ same' => same'.trans same

/-- No name is on record that is gone from the document. -/
theorem removed_eq_nil {cache : Cache} (reuses : Reuses c t cache) :
    cache.removed c.index.names = [] := by
  refine List.filter_eq_nil_iff.mpr fun name member => ?_
  rw [reuses.loaded.previous] at member
  have known : name ∈ c.index.names := by
    by_contra unknown
    have entry := rest.record.entry name
    rw [entryAfter_of_gone (Index.find?_eq_none unknown) List.not_mem_nil] at entry
    obtain ⟨found, here, same⟩ := List.mem_map.mp member
    have other := List.lookup_eq_none_iff.mp entry found here
    exact absurd same.symm (by simpa using other)
  simpa using known

end AtRest

/-! ## Whole runs -/

/-- A run up to where it saves the record. -/
def upToSave (c : Context) : Work Progress := do
  let p ← beginning c
  let p ← generateSchemas c c.index.named p
  removeAllStale c (p.cache.removed c.index.names) p

theorem generateFiles_eq_upToSave (c : Context) :
    generateFiles c = (do
      let p ← upToSave c
      if c.config.incremental then p.cache.save
      return p.report) := by
  simp only [generateFiles_eq, upToSave, bind_assoc]

/-- The texts are those that there were. That the file beside the record is gone again takes that
nothing is refused. -/
def Spared (c : Context) (t : FileTree) (permits : Prop) (u : FileTree) : Prop :=
  ∀ p, (p = t.namedPlace (freshCache c.config c.style).temporary → permits) →
    u.textAt? p = t.textAt? p

theorem Spared.of_grows {permits : Prop} {u : FileTree} (grows : FileTree.Grows t u) :
    Spared c t permits u :=
  fun p _ => grows.text p

namespace AtRest

variable (rest : AtRest c t) (incremental : c.config.incremental = true)
  (unforced : c.config.force = false) (declared : c.index.Declared)

include rest incremental unforced declared

theorem triple_upToSave :
    Triple F FileTree.Grows (fun u => u = t) (upToSave c) fun p _ => Reuses c t p.cache := by
  have grown : ∀ u v, FileTree.Grows t u → FileTree.Grows u v → FileTree.Grows t v :=
    fun _ _ => FileTree.Grows.trans
  unfold upToSave beginning
  simp only [bind_assoc, pure_bind]
  refine ((triple_openCache_again incremental unforced).invariant ?_ grown).bind fun cache => ?_
  · rintro _ rfl
    exact FileTree.Grows.refl _
  refine triple_of_fact fun reuses => ?_
  refine triple_makeOutputFolder_again.bind fun _ => ?_
  have runtime := (rest.triple_generateRuntime (F := F) RunReport.empty).invariant (fun _ h => h)
    grown
  refine runtime.bind fun report => triple_of_fact fun _ => ?_
  have schemas := (rest.triple_generateSchemas (F := F) declared (fun _ member => member)
    (p := ⟨cache, report⟩) reuses).invariant (fun _ h => h) grown
  refine schemas.bind fun p => triple_of_fact fun same => ?_
  have reuses : Reuses c t p.cache := same ▸ reuses
  rw [rest.removed_eq_nil reuses]
  exact triple_pure fun _ _ => reuses

theorem leaves_generateFiles {w : Workspace} (start : w.tree = t) :
    Leaves (generateFiles c) w (Spared c t w.files.Permits) := by
  subst start
  rw [generateFiles_eq_upToSave]
  refine (rest.triple_upToSave incremental unforced declared).leaves_bind rfl
    (fun u grows => .of_grows grows) fun p v left grows reuses => ?_
  rw [if_pos incremental]
  have loaded := reuses.loaded
  have places := FileTree.namedPlace_of_keeps grows.keeps
  have temporary : p.cache.temporary = (freshCache c.config c.style).temporary := by
    rw [Cache.temporary, loaded.file, Cache.temporary]
  have settled := FileTree.settled_of_textOf? rest.saved
  have saved := Cache.leaves_save_again (c := p.cache) (w := v)
    (by
      rw [loaded.file, loaded.style, loaded.pending, FileTree.textOf?_of_grows settled grows]
      exact rest.saved)
    (by
      rw [temporary, places, grows.text]
      exact rest.alone)
  refine (saved.mono fun u done q allowed => ?_).andThen fun _ _ same => leaves_of_files rfl same
  by_cases beside : q = w.tree.namedPlace (freshCache c.config c.style).temporary
  · have gone := done.gone fun e later => allowed beside e (left later)
    rw [temporary, places] at gone
    rw [beside, gone, rest.alone]
  · rw [done.other q (by rwa [temporary, places]), grows.text]

end AtRest

/-- A run changes no file where the files are at rest, and it does not matter whether it fails. The
file beside the record may stay where it was refused to remove it. -/
theorem leaves_generate {config : Config} {style : Style} {index : Index} {start : Workspace}
    (rest : AtRest (contextOf config style index) start.tree)
    (incremental : config.incremental = true) (unforced : config.force = false)
    (declared : index.Declared) :
    Leaves (generate config style index) start
      (Spared (contextOf config style index) start.tree start.files.Permits) := by
  rw [generate_eq]
  refine Leaves.bind (Returns.breaks (returns_prepare config index start)) ?_
  refine (gives_prepare config index start).mono fun built v ⟨equal, files⟩ => ?_
  have same : v.tree = start.tree := congrArg Disk.current files
  obtain ⟨outcome, s⟩ := built
  unfold contextOf at rest ⊢
  rw [← equal] at rest ⊢
  rw [← same] at rest ⊢
  rw [← files]
  cases outcome with
  | error kind =>
    refine leaves_of_files ?_ (.of_grows (FileTree.Grows.refl _))
    rfl
  | ok built =>
    have steps : Leaves (beforeFindings s.diagnostics
        (generateFiles ⟨config, style, index, s.registry⟩)) v
        (Spared ⟨config, style, index, s.registry⟩ v.tree v.files.Permits) :=
      rest.leaves_generateFiles incremental unforced declared rfl
    refine steps.andThen fun report u same => ?_
    refine Leaves.andThen ?_ fun _ u same => leaves_of_files rfl same
    unfold logSummary
    split <;> exact leaves_of_files rfl same

end Run

end HeaderForge
