import HeaderForge.Proofs.Cache.Staying
import HeaderForge.Proofs.Run.Idempotence
import HeaderForge.Proofs.Run.Turns
/-!
# What a run spares before it saves

Up to where a run saves the record it writes headers, and finds those that were moved by what they
say. So the record stays what it is until then, and where there is none there comes none.

1. `Run.Underway` is a run that has made the folder, and `Run.misses_target` and
   `Run.misses_of_textOf?` are the paths that it writes to.
2. `Run.triple_upToSave_sparing`: a run spares a file that has not the name of a header and says of
   no schema that it belongs to it.
-/

namespace HeaderForge

namespace Run

open Work
open FileTree (Spares)

variable {c : Context} {F : List (Option Fault)} {q : Place} {t u : FileTree}

/-- Whether a place is not that of a file with the name of a header. -/
def NoHeader (q : Place) : Prop := ∀ name, bytes ".hpp" <:+ name → q.getLast? ≠ some name

/-- The folder of the headers was made, and the file at a place says of no schema that it belongs to
it. -/
structure Underway (c : Context) (q : Place) (t : FileTree) : Prop where
  made : FolderMade c t
  unowned : Unowned (t.textAt? q)

theorem Underway.of_spares (underway : Underway c q t) (spares : Spares q t u) :
    Underway c q u where
  made := by
    obtain ⟨d, placed, folder⟩ := underway.made.folder
    exact ⟨underway.made.ready.of_keeps spares.keeps, spares.named underway.made.named, d,
      (FileTree.settled_of_place placed u spares.keeps).trans placed, spares.keeps.folder d folder⟩
  unowned := by
    rw [spares.text]
    exact underway.unowned

/-- A step that spares the file leaves the run underway. -/
theorem triple_underway {α : Type} {m : Work α}
    (h : Triple F (Spares q) (Underway c q) m fun _ _ => True) :
    Triple F (Spares q) (Underway c q) m fun _ => Underway c q :=
  (h.invariant (fun _ holds => holds) fun _ _ => Underway.of_spares).mono (fun _ holds => holds)
    fun _ _ after => after.2

/-! ## Where headers are written -/

theorem misses_child (made : FolderMade c t) (noHeader : NoHeader q) {name : Bytes}
    (isName : Path.IsName name) (ending : bytes ".hpp" <:+ name) :
    Misses q (Path.child c.config.outputDir name) t where
  settled := made.ready name isName.plain isName.whole
  other p placed free _ same := by
    obtain ⟨d, folder, isFolder⟩ := made.folder
    -- Where the path leads to no folder it is looked up whole, and the name comes last.
    have noFolder : ∀ p', t.place (Path.child c.config.outputDir name) = .ok p' →
        ¬ t.IsFolder p' := by
      intro p' placed'
      cases placed.symm.trans placed'
      exact free
    have whole := FileTree.zero_not_mem_of_child folder isFolder noFolder
    refine noHeader name ending ?_
    rw [same, FileTree.eq_namedPlace placed, FileTree.namedPlace_child t whole isName]
    exact List.getLast?_concat

theorem misses_target (made : FolderMade c t) (noHeader : NoHeader q) (name : Bytes) :
    Misses q (c.target name) t :=
  misses_child made noHeader (Naming.isName_headerFileName name) (Naming.suffix_headerFileName name)

/-- No new file comes to where one is. -/
theorem misses_of_textOf? {path text : Bytes} (held : t.textOf? path = some text) :
    Misses q path t where
  settled := FileTree.settled_of_textOf? held
  other p placed _ none := by
    rw [FileTree.textOf?_of_place placed, none] at held
    exact nomatch held

/-! ## The steps of a run -/

theorem triple_removeAllStale_sparing (names : List Bytes) (p : Progress) :
    Triple F (Spares q) (Underway c q) (removeAllStale c names p) fun _ => Underway c q := by
  have step : ∀ name p, Triple F (Spares q) (Underway c q) (removeStale c name p)
      fun _ => Underway c q := by
    intro name p
    have removal : Triple F (Spares q) (Underway c q) (removeStale c name p) fun _ _ => True := by
      refine (Owned.triple_remove_sparing.mono (fun _ h => h.unowned) fun _ _ h => h).attempt.bind
        fun outcome => ?_
      split
      · exact triple_pure fun _ _ => trivial
      · split
        · exact (triple_write _).bind fun _ => triple_pure fun _ _ => trivial
        · exact triple_pure fun _ _ => trivial
    exact triple_underway removal
  induction names generalizing p with
  | nil => exact triple_pure fun _ h => h
  | cons name rest ih => exact (step name p).bind fun r => ih r

section

variable (noHeader : NoHeader q)

include noHeader

theorem triple_generateRuntime_sparing (report : RunReport) :
    Triple F (Spares q) (Underway c q) (generateRuntime c report) fun _ => Underway c q := by
  have step : Triple F (Spares q) (Underway c q) (generateRuntime c report) fun _ _ => True := by
    unfold generateRuntime
    dsimp only
    split
    · refine (Owned.triple_remove_sparing.mono (fun _ h => h.unowned) fun _ _ h => h).attempt.bind
        fun outcome => ?_
      split
      · exact triple_pure fun _ _ => trivial
      · exact (triple_write _).bind fun _ => triple_pure fun _ _ => trivial
      · exact triple_pure fun _ _ => trivial
    · refine (Owned.triple_write_sparing.mono (fun t underway => ?_) fun _ _ h => h).attempt.bind
        fun outcome => ?_
      · exact ⟨misses_child underway.made noHeader isName_runtimeHeaderName (by decide),
          underway.unowned⟩
      · split <;> exact triple_pure fun _ _ => trivial
  exact triple_underway step

theorem triple_takeTurn_sparing (s : NamedSchema) (cache : Cache) :
    Triple F (Spares q) (Underway c q) (takeTurn c s cache) fun _ => Underway c q := by
  have step : Triple F (Spares q) (Underway c q) (takeTurn c s cache) fun _ _ => True := by
    unfold takeTurn
    split
    · exact triple_pure fun _ _ => trivial
    · refine (triple_locateTarget cache s.name).bind fun path => ?_
      refine (triple_isUpToDate cache path s.name (c.hash s)).bind fun fresh => ?_
      split
      · exact triple_pure fun _ _ => trivial
      · split
        · exact (triple_write _).bind fun _ => triple_pure fun _ _ => trivial
        · refine (Owned.triple_write_sparing.mono ?_ fun _ _ h => h).attempt.bind fun outcome => ?_
          · rintro t ⟨underway, rfl | ⟨text, held⟩⟩
            · exact ⟨misses_target underway.made noHeader s.name, underway.unowned⟩
            · exact ⟨misses_of_textOf? held, underway.unowned⟩
          · split
            · exact triple_pure fun _ _ => trivial
            · exact (triple_logOutcome _ _ _).bind fun _ => triple_pure fun _ _ => trivial
  exact triple_underway step

theorem triple_visits_sparing (schemas : List NamedSchema) (p : Progress) :
    Triple F (Spares q) (Underway c q) (visits c schemas p) fun _ => Underway c q := by
  induction schemas generalizing p with
  | nil => exact triple_pure fun _ h => h
  | cons s rest ih =>
    refine (triple_takeTurn_sparing noHeader s p.cache).bind fun turn => ?_
    exact (ih _).bind fun _ => triple_pure fun _ h => h

theorem triple_beginning_sparing :
    Triple F (Spares q) (fun t => t.Named ∧ Unowned (t.textAt? q)) (beginning c)
      fun _ => Underway c q := by
  have opened : Triple F (Spares q) (fun t => t.Named ∧ Unowned (t.textAt? q)) (openCache c)
      fun _ t => t.Named ∧ Unowned (t.textAt? q) := by
    unfold openCache
    dsimp only
    split
    · refine triple_of_start fun t start => ((Cache.triple_load _ t).invariant ?_
        fun t u (holds : t.Named ∧ Unowned (t.textAt? q)) spares => ?_).mono (fun _ h => h)
          fun _ _ after => after.2
      · rintro _ rfl
        exact start
      · exact ⟨spares.named holds.1, spares.text ▸ holds.2⟩
    · exact triple_pure fun _ h => h
  have made : Triple F (Spares q) (fun t => t.Named ∧ Unowned (t.textAt? q)) (makeOutputFolder c)
      fun _ => Underway c q := by
    refine (triple_makeFolders (FileTree.spares_makeFolders q · _) fun _ => triple_fail _ _ _).mono
      (fun _ h => h) ?_
    rintro _ u ⟨t, ⟨named, unowned⟩, made⟩
    have spared := FileTree.spares_makeFolders q t c.config.outputDir
    rw [made] at spared
    refine ⟨⟨ready_of_makeFolders made, spared.named named, ?_⟩, spared.text ▸ unowned⟩
    exact FileTree.place_of_makeFolders named made
  unfold beginning
  refine opened.bind fun cache => made.bind fun _ => ?_
  exact (triple_generateRuntime_sparing noHeader RunReport.empty).bind fun report =>
    triple_pure fun _ h => h

/-- A run spares a file that has not the name of a header and says of no schema that it belongs to
it, up to where the run saves. -/
theorem triple_upToSave_sparing :
    Triple F (Spares q) (fun t => t.Named ∧ Unowned (t.textAt? q)) (upToSave c)
      fun _ => Underway c q := by
  unfold upToSave
  refine (triple_beginning_sparing noHeader).bind fun p => ?_
  simp only [generateSchemas_eq, bind_assoc, pure_bind]
  refine (triple_visits_sparing noHeader c.index.named p).bind fun vs => ?_
  exact triple_removeAllStale_sparing _ _

end

/-- Whatever else it does, a run up to where it saves keeps folders, and names free of zero bytes. -/
theorem triple_upToSave_root : Triple F (Spares []) FileTree.Named (upToSave c) fun _ _ => True := by
  have noHeader : NoHeader [] := fun _ _ last => nomatch last
  refine (triple_upToSave_sparing noHeader).mono (fun t named => ⟨named, ?_⟩) fun _ _ _ => trivial
  exact fun _ _ none => nomatch none

end Run

end HeaderForge
