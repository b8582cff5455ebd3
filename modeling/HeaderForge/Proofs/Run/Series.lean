import HeaderForge.Proofs.Run.Sparing
/-!
# Runs one after the other

The record says which hash each schema had when its header was last brought up to date, and not
where the header was. So in a series of runs in a project, for documents and with settings that may
differ, a schema is skipped only where the last turn that brought its header up to date had the hash
that it has now. This may have been a turn in another folder, and then the header that is skipped is
an older one. The turns of runs that could not save their record do not count, and so a header that
such a run has written may be skipped too.

1. `Run.Job` is a run to be made, and `Run.after` and `Run.history` are the files and the turns
   after a list of them.
2. `Run.Traced` is what is known of the record. One run keeps it by `Run.breaks_traced` and
   `Run.gives_traced`, and a list of runs by `Run.traced_after`.
3. `Run.skipped_latest` is the result, and `Run.not_skipsCurrent` shows what cannot be said.
-/

namespace HeaderForge

namespace Run

open Work
open FileTree (Spares)

/-! ## Series of runs -/

/-- A run in the project in a folder. -/
structure Job (dir : Bytes) where
  text : Bytes
  config : Config
  log : Log
  /-- What comes in the way. -/
  faults : List (Option Fault)
  project : config.projectDir = dir
  incremental : config.incremental = true

variable {dir : Bytes} {style : Style} {c : Context} {t : FileTree} {w : Workspace}
  {H : List Visit} {p : Progress}

/-- What a run starts with. -/
def Job.start (j : Job dir) (t : FileTree) : Workspace := ⟨⟨t, [], j.faults⟩, j.log⟩

/-- The report of a run, if it returns one, and the files that it leaves. -/
def Job.run (style : Style) (j : Job dir) (t : FileTree) : Option RunReport × FileTree :=
  match Index.read j.text with
  | .error _ => (none, t)
  | .ok index =>
    let ended := (generate j.config style index).run.run (j.start t)
    (ended.1.toOption, ended.2.tree)

/-- The turns of the schemas of a document. There are none where a run fails before them. -/
def turns (c : Context) (w : Workspace) : List Visit :=
  let steps : Work (List Visit) := do visits c c.index.named (← beginning c)
  match (steps.run.run w).1 with
  | .error _ => []
  | .ok vs => vs

/-- The turns of a run. -/
def Job.turns (style : Style) (j : Job dir) (t : FileTree) : List Visit :=
  match Index.read j.text with
  | .error _ => []
  | .ok index =>
    match (prepare j.config index).run.run (j.start t) with
    | (.ok (.ok (), s), w) => Run.turns ⟨j.config, style, index, s.registry⟩ w
    | _ => []

/-- A turn that was taken. -/
structure PastTurn where
  visit : Visit
  /-- Whether its run returned a report, and so had saved the record. -/
  saved : Bool
deriving DecidableEq, Repr

/-- The files after runs. -/
def after (style : Style) : List (Job dir) → FileTree → FileTree
  | [], t => t
  | j :: jobs, t => after style jobs (j.run style t).2

/-- The turns of runs. -/
def history (style : Style) : List (Job dir) → FileTree → List PastTurn
  | [], _ => []
  | j :: jobs, t =>
    (j.turns style t).map (fun v => ⟨v, (j.run style t).1.isSome⟩) ++
      history style jobs (j.run style t).2

/-- The turns that a record was saved after. -/
def recorded (past : List PastTurn) : List Visit := (past.filter PastTurn.saved).map PastTurn.visit

theorem recorded_append (past more : List PastTurn) :
    recorded (past ++ more) = recorded past ++ recorded more := by
  rw [recorded, List.filter_append, List.map_append]
  rfl

theorem recorded_turns (vs : List Visit) (saved : Bool) :
    recorded (vs.map fun v => ⟨v, saved⟩) = if saved then vs else [] := by
  unfold recorded
  cases saved with
  | true => simp [List.filter_map, Function.comp_def]
  | false => simp [List.filter_map, Function.comp_def]

/-- A run changes nothing and returns no report, or it comes to bring files up to date. -/
inductive Job.Comes (style : Style) (j : Job dir) (t : FileTree) : Prop
  | nowhere (run : j.run style t = (none, t))
  | files (c : Context) (w : Workspace) (config : c.config = j.config) (same : c.style = style)
      (start : w.tree = t) (left : (j.run style t).2 = ((generateFiles c).run.run w).2.tree)
      (fails : ∀ e u, (generateFiles c).run.run w = (.error e, u) → (j.run style t).1 = none)
      (returns : ∀ listed u, (generateFiles c).run.run w = (.ok listed, u) →
        ∃ report, (j.run style t).1 = some report ∧ report.skipped = listed.skipped)
      (turns : j.turns style t = Run.turns c w)

/-- A run for a document whose classes were built does with files what it does to bring them up to
date. -/
theorem run_generate_of_prepare (style : Style) {config : Config} {index : Index} {s : BuildState}
    {v : Workspace} (prepared : (prepare config index).run.run v = (.ok (.ok (), s), w)) :
    let files := (generateFiles ⟨config, style, index, s.registry⟩).run.run w
    let run := (generate config style index).run.run v
    run.2.tree = files.2.tree ∧ run.1 = files.1.map fun listed =>
      { listed with diagnostics := Lint.run index config.lint ++ s.diagnostics } := by
  dsimp only
  rw [generate_eq, run_bind, prepared]
  dsimp only
  rw [run_bind, run_beforeFindings]
  rcases (generateFiles ⟨config, style, index, s.registry⟩).run.run w with ⟨e | listed, u⟩
  · exact ⟨rfl, rfl⟩
  · dsimp only
    unfold logSummary
    split
    · exact ⟨rfl, rfl⟩
    · exact ⟨rfl, rfl⟩

theorem Job.comes (style : Style) (j : Job dir) (t : FileTree) : j.Comes style t := by
  cases read : Index.read j.text with
  | error e => exact .nowhere (by simp only [Job.run, read])
  | ok index =>
    obtain ⟨⟨outcome, s⟩, w, prepared⟩ := returns_prepare j.config index (j.start t)
    have files := (gives_prepare j.config index (j.start t) _ w prepared).2
    have start : w.tree = t := congrArg Disk.current files
    cases outcome with
    | error kind =>
      refine .nowhere ?_
      simp only [Job.run, read]
      rw [generate_eq, run_bind, prepared]
      exact Prod.ext rfl start
    | ok =>
      obtain ⟨left, outcome⟩ := run_generate_of_prepare style prepared
      refine .files ⟨j.config, style, index, s.registry⟩ w rfl rfl start ?_ ?_ ?_
        (by simp only [Job.turns, read, prepared])
      · simp only [Job.run, read]
        exact left
      · intro e u failed
        simp only [Job.run, read, outcome, failed]
        rfl
      · intro listed u ran
        simp only [Job.run, read, outcome, ran]
        exact ⟨_, rfl, rfl⟩

/-! ## What a run notes -/

/-- A record knows the hashes of the last turns that brought headers up to date. -/
def Knows (H : List Visit) (hashes : List (Bytes × Bytes)) : Prop :=
  ∀ name hash, hashes.lookup name = some hash →
    (latest (·.delivers name) H).map Visit.hash = some hash

theorem knows_nil (H : List Visit) : Knows H [] := fun _ _ none => nomatch none

/-- Whether the schemas that a report lists as skipped had such turns, with the hashes of the last
turns that brought their headers up to date. -/
def SkipsKnown (H vs : List Visit) (report : RunReport) : Prop :=
  ∀ name, name ∈ report.skipped → ∃ v path d, v ∈ vs ∧ v.name = name ∧ v.turn = .skipped path ∧
    latest (·.delivers name) H = some d ∧ d.hash = v.hash

/-- What a run has noted when it comes to save a record. -/
structure Noted (c : Context) (H : List Visit) (w : Workspace) (p : Progress) : Prop where
  file : p.cache.file = Path.child c.config.projectDir Cache.fileName
  style : p.cache.style = c.style.name
  wellFormed : CacheRecord.WellFormed ⟨c.style.name, p.cache.pending⟩
  knows (before : Knows H ((freshCache c.config c.style).onRecord w.tree)) :
    Knows (H ++ turns c w) p.cache.pending
  skipped (before : Knows H ((freshCache c.config c.style).onRecord w.tree)) :
    SkipsKnown H (turns c w) p.report

theorem turns_of_visits {q : Progress} {v u : Workspace} {vs : List Visit}
    (began : (beginning c).run.run w = (.ok q, v))
    (visited : (visits c c.index.named q).run.run v = (.ok vs, u)) : turns c w = vs := by
  unfold turns
  dsimp only
  rw [run_bind, began]
  dsimp only
  rw [visited]

theorem gives_upToSave_noted (incremental : c.config.incremental = true) (H : List Visit)
    (w : Workspace) : Gives (upToSave c) w fun p _ => Noted c H w p := by
  unfold upToSave
  refine (Gives.run (beginning c) w).bind fun q v began => ?_
  obtain ⟨loaded, unskipped, _⟩ := gives_beginning incremental w q v began
  simp only [generateSchemas_eq, bind_assoc, pure_bind]
  refine (Gives.run (visits c c.index.named q) v).bind fun vs u visited => ?_
  have taken := gives_visits c c.index.named q v vs u visited
  have all := turns_of_visits began visited
  have same := sameRecord_afterAll q vs
  refine (gives_removeAllStale_sheds c _ (q.afterAll vs) u).mono fun p _ sheds => ?_
  constructor
  · exact sheds.same.file.trans (same.file.trans loaded.file)
  · exact sheds.same.style.trans (same.style.trans loaded.style)
  · refine sheds.wellFormed _ (wellFormed_afterAll (fun v member => ?_) ?_)
    · obtain ⟨s, _, equal⟩ := taken.visit v member
      rw [equal]
      exact hash_ne_nil c s
    · rw [loaded.pending]
      exact Cache.wellFormed_onRecord (freshCache c.config c.style) w.tree
  · intro knows name hash entry
    have noted := lookup_afterAll (sheds.lookup name hash entry)
    rw [loaded.pending] at noted
    rw [all, latest_append]
    cases last : latest (·.delivers name) vs with
    | none => exact knows name hash (by rwa [last] at noted)
    | some d => rwa [last] at noted
  · intro knows name member
    rw [sheds.skipped, mem_skipped_afterAll, unskipped] at member
    obtain none | ⟨v, member, name, path, turn⟩ := member
    · exact nomatch none
    · have recorded := taken.recorded v path member turn
      rw [loaded.previous] at recorded
      obtain ⟨d, last, hash⟩ := Option.map_eq_some_iff.mp (knows v.name v.hash recorded)
      exact ⟨v, path, d, all ▸ member, name, turn, name ▸ last, hash⟩

/-! ## What is known of the record -/

/-- Where a project has its record. -/
abbrev recordFile (dir : Bytes) : Bytes := Path.child dir Cache.fileName

/-- What is known of the record of a project after turns: no run saves one, there is none, or there
is one that knows the last turns. -/
inductive Traced (dir : Bytes) (style : Style) (H : List Visit) (t : FileTree) : Prop
  | never (zero : 0 ∈ dir)
  | missing (whole : 0 ∉ dir) (none : t.textAt? (t.namedPlace (recordFile dir)) = none)
  | kept {hashes : List (Bytes × Bytes)} (whole : 0 ∉ dir)
      (held : t.textOf? (recordFile dir) = some (CacheRecord.text ⟨style.name, hashes⟩))
      (wf : CacheRecord.WellFormed ⟨style.name, hashes⟩) (knows : Knows H hashes)

/-- What a run can rely on where it may come to save a record. -/
theorem Traced.known (traced : Traced dir style H t) (whole : 0 ∉ dir) :
    Unowned (t.textAt? (t.namedPlace (recordFile dir))) ∧
      ∀ cache : Cache, cache.file = recordFile dir → cache.style = style.name →
        Knows H (cache.onRecord t) := by
  cases traced with
  | never zero => exact absurd zero whole
  | missing _ none =>
    refine ⟨fun text name held => ?_, fun cache file _ => ?_⟩
    · exact nomatch none.symm.trans held
    · have unread : ∀ r text, t.read cache.file = .ok text → CacheRecord.read text ≠ some r := by
        intro r text read parsed
        -- A text that can be parsed is not that of a folder.
        have filled : text ≠ [] := by
          rintro rfl
          exact nomatch parsed
        have held := FileTree.textAt?_of_textOf? (FileTree.textOf?_of_read read filled)
        rw [file] at held
        exact nomatch none.symm.trans held
      rw [Cache.onRecord]
      split
      · exact knows_nil H
      · next text read =>
        split
        · exact knows_nil H
        · next r parsed => exact absurd parsed (unread r text read)
  | kept _ held wf knows =>
    refine ⟨fun text name here => ?_, fun cache file same => ?_⟩
    · cases (FileTree.textAt?_of_textOf? held).symm.trans here
      exact CacheRecord.carries_text _ name
    · rw [← file, ← same] at held
      rw [Cache.onRecord_of_saved (same ▸ wf) held]
      exact knows

theorem noHeader_recordFile (whole : 0 ∉ dir) (t : FileTree) :
    NoHeader (t.namedPlace (recordFile dir)) := by
  intro name ending last
  rw [FileTree.namedPlace_child t whole Cache.isName_fileName, List.getLast?_concat] at last
  cases last
  exact absurd ending (by decide)

/-- What is known stays so where the record is left as it is. -/
theorem Traced.of_spares {u : FileTree} (traced : Traced dir style H t)
    (spares : Spares (t.namedPlace (recordFile dir)) t u) : Traced dir style H u := by
  cases traced with
  | never zero => exact .never zero
  | missing whole none =>
    refine .missing whole ?_
    rw [FileTree.namedPlace_of_keeps spares.keeps, spares.text]
    exact none
  | kept whole held wf knows =>
    refine .kept whole ?_ wf knows
    rw [FileTree.textOf?_of_keeps (FileTree.settled_of_textOf? held) spares.keeps spares.text]
    exact held

/-! ## One run -/

/-- Whatever becomes of a run, names stay free of zero bytes and folders stay. -/
theorem triple_generateFiles_sparing {F : List (Option Fault)} :
    Triple F (Spares []) FileTree.Named (generateFiles c) fun _ _ => True := by
  rw [generateFiles_eq_upToSave]
  refine triple_upToSave_root.bind fun p => ?_
  split
  · exact Cache.triple_save_root.bind fun _ => triple_pure fun _ _ => trivial
  · exact triple_pure fun _ _ => trivial

section

variable (incremental : c.config.incremental = true) (project : c.config.projectDir = dir)
  (named : w.tree.Named) (traced : Traced dir c.style H w.tree)

include incremental project named traced

/-- A run that fails leaves the record that there is. -/
theorem breaks_traced : Breaks (generateFiles c) w (Traced dir c.style H) := by
  by_cases zero : 0 ∈ dir
  · exact fun _ _ _ => .never zero
  obtain ⟨unowned, _⟩ := traced.known zero
  have upTo := triple_upToSave_sparing (c := c) (F := w.files.faults)
    (noHeader_recordFile zero w.tree)
  have spared := upTo.spares (w := w) ⟨named, unowned⟩
  rw [generateFiles_eq_upToSave]
  refine Breaks.bind ?_ fun p u reached => ?_
  · exact (upTo.breaks ⟨named, unowned⟩).mono fun _ spares => traced.of_spares spares
  · rw [reached] at spared
    have noted := gives_upToSave_noted incremental H w p u reached
    have file : p.cache.file = recordFile dir := by rw [noted.file, project]
    have apart := (Cache.namedPlace_temporary_ne file zero u.tree).symm
    rw [if_pos incremental]
    refine Breaks.bind ?_ fun _ v _ => Returns.breaks (Returns.pure _ v)
    exact (Cache.breaks_save apart).mono fun _ spares =>
      (traced.of_spares spared).of_spares (file ▸ spares)

/-- A run that returns a report has saved a record that knows the turns of the run too, and what it
says of the schemas that were skipped was known. -/
theorem gives_traced : Gives (generateFiles c) w fun report u =>
    Traced dir c.style (H ++ turns c w) u.tree ∧ SkipsKnown H (turns c w) report := by
  rw [generateFiles_eq_upToSave]
  refine (Gives.run (upToSave c) w).bind fun p u reached => ?_
  have spared := (triple_upToSave_root (c := c)).spares named
  rw [reached] at spared
  have noted := gives_upToSave_noted incremental H w p u reached
  have file : p.cache.file = recordFile dir := by rw [noted.file, project]
  rw [if_pos incremental]
  refine (Gives.run p.cache.save u).bind fun _ v saved => Gives.pure ?_
  obtain ⟨whole, _⟩ := Cache.gives_save_alone file (spared.named named) _ v saved
  have held := Cache.gives_save p.cache u _ v saved
  obtain ⟨_, knows⟩ := traced.known whole
  specialize knows (freshCache c.config c.style) (by rw [← project]; rfl) rfl
  rw [file, noted.style] at held
  exact ⟨.kept whole held noted.wellFormed (noted.knows knows), noted.skipped knows⟩

end

/-! ## All runs -/

/-- One run of a series. -/
theorem traced_run (j : Job dir) (named : t.Named) (traced : Traced dir style H t) :
    (j.run style t).2.Named ∧
      Traced dir style (H ++ if (j.run style t).1.isSome then j.turns style t else [])
        (j.run style t).2 := by
  cases j.comes style t with
  | nowhere run =>
    rw [run]
    exact ⟨named, by simpa using traced⟩
  | files c w config same start left fails returns turns =>
    subst same start
    have spared := (triple_generateFiles_sparing (c := c)).spares named
    rw [left]
    refine ⟨spared.named named, ?_⟩
    rcases ran : (generateFiles c).run.run w with ⟨e | listed, u⟩
    · rw [fails e u ran, if_neg (by simp), List.append_nil]
      exact breaks_traced (config ▸ j.incremental) (config ▸ j.project) named traced e u ran
    · obtain ⟨report, reported, _⟩ := returns listed u ran
      have saved : (some report).isSome = true := rfl
      rw [reported, if_pos saved, turns]
      exact (gives_traced (config ▸ j.incremental) (config ▸ j.project) named traced listed u
        ran).1

theorem traced_after (jobs : List (Job dir)) (named : t.Named) (traced : Traced dir style H t) :
    (after style jobs t).Named ∧
      Traced dir style (H ++ recorded (history style jobs t)) (after style jobs t) := by
  induction jobs generalizing H t with
  | nil => exact ⟨named, by simpa [history, recorded, after] using traced⟩
  | cons j jobs ih =>
    obtain ⟨named, traced⟩ := traced_run j named traced
    rw [history, recorded_append, recorded_turns, ← List.append_assoc]
    exact ih named traced

/-- In a project without a record, runs are made one after the other, for documents and with
settings that may differ, and some of them may fail. The next one lists a schema as skipped only if,
in the runs that saved their record, the last turn that brought its header up to date, wherever that
was, had the hash that the schema has now. It is the last such turn of all too, unless that was in a
run that did not save its record, and if it was at the path of the header that is skipped, then it
is also the last such turn at this path, with the same exception. -/
theorem skipped_latest (jobs : List (Job dir)) (j : Job dir) (named : t.Named)
    (unrecorded : t.textAt? (t.namedPlace (Path.child dir Cache.fileName)) = none)
    {report : RunReport} {name : Bytes}
    (run : (j.run style (after style jobs t)).1 = some report) (skipped : name ∈ report.skipped) :
    ∃ v path d, v ∈ j.turns style (after style jobs t) ∧ v.name = name ∧ v.turn = .skipped path ∧
      latest (·.delivers name) (recorded (history style jobs t)) = some d ∧ d.hash = v.hash ∧
      (∃ last, latest (·.visit.delivers name) (history style jobs t) = some last ∧
        (last.saved = true → last.visit = d)) ∧
      (d.turn.delivered? = some path →
        ∃ last, latest (·.visit.deliversAt name path) (history style jobs t) = some last ∧
          (last.saved = true → last.visit = d)) := by
  have start : Traced dir style [] t := by
    by_cases zero : 0 ∈ dir
    · exact .never zero
    · exact .missing zero unrecorded
  obtain ⟨named, traced⟩ := traced_after jobs named start
  cases j.comes style (after style jobs t) with
  | nowhere none => exact nomatch run.symm.trans (congrArg Prod.fst none)
  | files c w config same start _ fails returns turns =>
    subst same
    rw [← start] at named traced
    rcases ran : (generateFiles c).run.run w with ⟨e | listed, u⟩
    · exact nomatch run.symm.trans (fails e u ran)
    obtain ⟨report', reported, lists⟩ := returns listed u ran
    cases run.symm.trans reported
    obtain ⟨_, known⟩ := gives_traced (config ▸ j.incremental) (config ▸ j.project) named traced
      listed u ran
    obtain ⟨v, path, d, member, same, turn, newest, hash⟩ := known name (lists ▸ skipped)
    have delivers : d.delivers name = true :=
      (List.mem_filter.mp (List.mem_of_getLast? newest)).2
    rw [List.nil_append] at newest
    refine ⟨v, path, d, turns ▸ member, same, turn, newest, hash, ?_⟩
    rw [recorded, latest_map, latest_filter] at newest
    obtain ⟨past, counted, rfl⟩ := Option.map_eq_some_iff.mp newest
    constructor
    · obtain ⟨last, all, counts⟩ := latest_of_counts (fun _ is => is) counted delivers
      exact ⟨last, all, fun saved => congrArg PastTurn.visit (counts saved)⟩
    · intro here
      have more : ∀ u : PastTurn, u.visit.deliversAt name path = true →
          u.visit.delivers name = true := fun u => u.visit.delivers_of_deliversAt
      obtain ⟨last, all, counts⟩ := latest_of_counts more counted
        (Visit.deliversAt_of_delivers delivers here)
      exact ⟨last, all, fun saved => congrArg PastTurn.visit (counts saved)⟩

/-- A document with these schemas. -/
def exDocument (schemas : List (Bytes × Node)) : Bytes :=
  (Node.obj [(bytes "swagger", .str (bytes "2.0")), (bytes "definitions", .obj schemas)]).toJson

def exPetOf (type : String) : List (Bytes × Node) :=
  [(bytes "Pet", .obj [(bytes "type", .str (bytes type))])]

/-- A run for these schemas with headers in a folder. -/
def exJob (schemas : List (Bytes × Node)) (folder : String) : Job Config.standard.projectDir :=
  ⟨exDocument schemas, { Config.standard with outputDir := bytes folder }, .empty, [], rfl, rfl⟩

/-- A schema that is there, is gone, and is there again in another form, for which there is another
folder. -/
def exMoves : List (Job Config.standard.projectDir) :=
  [exJob (exPetOf "string") "a", exJob [] "b", exJob (exPetOf "integer") "b"]

/-- The run after them, for the schema as it is now and the folder as it was at first. -/
def exReturn : Job Config.standard.projectDir := exJob (exPetOf "integer") "a"

def exVisit (hash path : String) (turn : Bytes → Turn) : Visit :=
  ⟨bytes "Pet", bytes hash, bytes path, turn (bytes path)⟩

/-- What a run after others reports as skipped, its turns, and those before it. -/
def exSeries (jobs : List (Job Config.standard.projectDir)) (j : Job Config.standard.projectDir) :
    Option (List Bytes) × List Visit × List PastTurn :=
  ((j.run .plain (after .plain jobs exEmpty)).1.map RunReport.skipped,
    j.turns .plain (after .plain jobs exEmpty), history .plain jobs exEmpty)

theorem exSeries_exMoves : exSeries exMoves exReturn =
    (some [bytes "Pet"], [exVisit "5ff61bb1c3c181eb" "a/pet.hpp" .skipped],
      [⟨exVisit "eb217aaa45311c98" "a/pet.hpp" (.delivered · .created), true⟩,
        ⟨exVisit "5ff61bb1c3c181eb" "b/pet.hpp" (.delivered · .created), true⟩]) := by
  decide +kernel

theorem skipped_latest_exMoves :
    ∃ report, exEmpty.Named ∧
      exEmpty.textAt? (exEmpty.namedPlace (Path.child Config.standard.projectDir Cache.fileName)) =
        none ∧
      (exReturn.run .plain (after .plain exMoves exEmpty)).1 = some report ∧
      bytes "Pet" ∈ report.skipped ∧
      ∃ v path d, v ∈ exReturn.turns .plain (after .plain exMoves exEmpty) ∧ v.name = bytes "Pet" ∧
        v.turn = .skipped path ∧
        latest (·.delivers (bytes "Pet")) (recorded (history .plain exMoves exEmpty)) = some d ∧
        d.hash = v.hash ∧
        (∃ last, latest (·.visit.delivers (bytes "Pet")) (history .plain exMoves exEmpty) =
          some last ∧ (last.saved = true → last.visit = d)) ∧
        (d.turn.delivered? = some path →
          ∃ last, latest (·.visit.deliversAt (bytes "Pet") path)
            (history .plain exMoves exEmpty) = some last ∧
            (last.saved = true → last.visit = d)) := by
  obtain ⟨listed, _⟩ := Prod.mk.inj exSeries_exMoves
  obtain ⟨report, run, skipped⟩ := Option.map_eq_some_iff.mp listed
  have member : bytes "Pet" ∈ report.skipped := skipped ▸ List.mem_singleton_self _
  exact ⟨report, named_exEmpty, rfl, run, member,
    skipped_latest exMoves exReturn named_exEmpty rfl run member⟩

/-- What `skipped_latest` says, but of the header that is skipped and not of the one that was last
brought up to date, and of all runs. -/
def SkipsCurrent (style : Style) (jobs : List (Job dir)) (j : Job dir) (t : FileTree) : Prop :=
  ∀ report name, (j.run style (after style jobs t)).1 = some report → name ∈ report.skipped →
    ∃ v path d, v ∈ j.turns style (after style jobs t) ∧ v.name = name ∧ v.turn = .skipped path ∧
      latest (·.visit.deliversAt name path) (history style jobs t) = some d ∧ d.visit.hash = v.hash

/-- It does not hold where the last turn at the path had another hash. -/
theorem not_skipsCurrent_of {jobs : List (Job Config.standard.projectDir)}
    {j : Job Config.standard.projectDir} {v : Visit} {path : Bytes} {past : List PastTurn}
    (last : PastTurn) (series : exSeries jobs j = (some [v.name], [v], past))
    (turn : v.turn = .skipped path)
    (newest : latest (·.visit.deliversAt v.name path) past = some last)
    (differs : last.visit.hash ≠ v.hash) : ¬ SkipsCurrent .plain jobs j exEmpty := by
  intro current
  obtain ⟨listed, both⟩ := Prod.mk.inj series
  obtain ⟨turns, history⟩ := Prod.mk.inj both
  obtain ⟨report, run, skipped⟩ := Option.map_eq_some_iff.mp listed
  have member : v.name ∈ report.skipped := skipped ▸ List.mem_singleton_self _
  obtain ⟨v', path', d, member, _, at_, last', same⟩ := current report v.name run member
  rw [turns, List.mem_singleton] at member
  subst member
  cases turn.symm.trans at_
  rw [history] at last'
  cases newest.symm.trans last'
  exact differs same

/-- A schema that has another form in the second run, where the disk is full when the record is
saved. -/
def exUnsaved : List (Job Config.standard.projectDir) :=
  [exJob (exPetOf "string") "a",
    { exJob (exPetOf "integer") "a" with faults := [none, some (.full 5)] }]

/-- The run after them, for the schema as it was at first. -/
def exBefore : Job Config.standard.projectDir := exJob (exPetOf "string") "a"

theorem exSeries_exUnsaved : exSeries exUnsaved exBefore =
    (some [bytes "Pet"], [exVisit "eb217aaa45311c98" "a/pet.hpp" .skipped],
      [⟨exVisit "eb217aaa45311c98" "a/pet.hpp" (.delivered · .created), true⟩,
        ⟨exVisit "5ff61bb1c3c181eb" "a/pet.hpp" (.delivered · .updated), false⟩]) := by
  decide +kernel

/-- The header in the second folder has the hash on record. So the one in the first folder is
skipped, which is that of another form of the schema. None of the runs is forced, and apart from the
folder all settings are the same. If a run has written a header and cannot save its record, then the
header is skipped for the form before it, though there was one folder all along. -/
theorem not_skipsCurrent :
    (∀ j, j ∈ exReturn :: exMoves ++ exBefore :: exUnsaved → j.config.force = false ∧
      j.config.fingerprint Style.plain.name = Config.standard.fingerprint Style.plain.name) ∧
    ¬ SkipsCurrent .plain exMoves exReturn exEmpty ∧
    ¬ SkipsCurrent .plain exUnsaved exBefore exEmpty := by
  refine ⟨by decide +kernel, ?_, ?_⟩
  · refine not_skipsCurrent_of (v := exVisit "5ff61bb1c3c181eb" "a/pet.hpp" .skipped)
      ⟨exVisit "eb217aaa45311c98" "a/pet.hpp" (.delivered · .created), true⟩
      exSeries_exMoves rfl ?_ (by decide)
    decide +kernel
  · refine not_skipsCurrent_of (v := exVisit "eb217aaa45311c98" "a/pet.hpp" .skipped)
      ⟨exVisit "5ff61bb1c3c181eb" "a/pet.hpp" (.delivered · .updated), false⟩
      exSeries_exUnsaved rfl ?_ (by decide)
    decide +kernel

end Run

end HeaderForge
