import HeaderForge.Files.Owned
import HeaderForge.Proofs.Bytes.Sorting
import HeaderForge.Proofs.Files.Region
import HeaderForge.Proofs.Files.Work
/-!
# What becomes of files that are written and removed for schemas

Every change to a file is of one of three kinds: it is created where none was, what stands between
its markers is replaced, or it is removed. The last two happen for a schema whose identity the file
carries. Where the disk is full, a text is cut off that takes the place of another one. Where the
folder of a path was made before, the path leads to one place all along, so a file that comes to
light on the way is not taken for a missing one.

1. `TextChange` and `Change` say what kinds of changes there are.
2. `Owned.triple_write_of` and `Owned.triple_remove_of` say which changes of the tree writing and
   removing come down to, so that `Owned.triple_write` and `Owned.triple_remove` keep to the kinds.
-/

namespace HeaderForge

/-- For whom files may be changed, which places are no files of schemas, and what disturbs. -/
structure Rights where
  markers : Markers
  mayWrite : Bytes → Prop
  mayRemove : Bytes → Prop
  isApart : Place → Prop
  /-- What may come in the way. -/
  faults : List (Option Fault)

/-- What may become of the text at a place in one step. -/
inductive TextChange (r : Rights) : Option Bytes → Option Bytes → Prop
  | kept (text : Option Bytes) : TextChange r text text
  | created (text : Bytes) : TextChange r none (some text)
  | merged {old new name body : Bytes} (may : r.mayWrite name)
    (merged : Region.merge r.markers (some old) name body = .ok new) :
    TextChange r (some old) (some new)
  | cut {old new name body : Bytes} {room : Nat} (may : r.mayWrite name)
    (merged : Region.merge r.markers (some old) name body = .ok new)
    (full : some (.full room) ∈ r.faults) (short : room < new.length) :
    TextChange r (some old) (some (new.take room))
  | removed {old name : Bytes} (may : r.mayRemove name) (own : carries r.markers old name = true) :
    TextChange r (some old) none

/-- A step keeps the folders, and changes texts as it may. -/
structure Change (r : Rights) (t u : FileTree) : Prop where
  keeps : FileTree.Keeps t u
  text : ∀ p, ¬ r.isApart p → TextChange r (t.textAt? p) (u.textAt? p)

namespace Change

variable {r : Rights} {t u : FileTree}

theorem of_grows (grows : FileTree.Grows t u) : Change r t u := by
  refine ⟨grows.keeps, fun p _ => ?_⟩
  rw [grows.text p]
  exact .kept _

theorem of_makeFolders (t : FileTree) (path : Bytes) : Change r t (t.makeFolders path).2 :=
  of_grows (FileTree.grows_makeFolders t path)

theorem of_onlyAt {p : Place} (only : FileTree.OnlyAt p t u)
    (here : TextChange r (t.textAt? p) (u.textAt? p)) : Change r t u := by
  refine ⟨only.keeps, fun q _ => ?_⟩
  by_cases equal : q = p
  · rwa [equal]
  · rw [only.other q equal]
    exact .kept _

theorem of_apart {p : Place} (only : FileTree.OnlyAt p t u) (apart : r.isApart p) :
    Change r t u := by
  refine ⟨only.keeps, fun q files => ?_⟩
  have other : q ≠ p := by
    rintro rfl
    exact files apart
  rw [only.other q other]
  exact .kept _

end Change

namespace FileTree

/-- What a search finds can be read, and is accepted. -/
theorem read_of_mem_search {t : FileTree} {root fileName skip path : Bytes} {accept : Bytes → Bool}
    (h : path ∈ t.search root fileName skip accept) :
    ∃ text, t.read path = .ok text ∧ accept text = true := by
  unfold search at h
  split at h
  · have found := (sortBy_perm _).mem_iff.mp h
    obtain ⟨_, accepted⟩ := List.mem_filter.mp found
    split at accepted
    · next text held => exact ⟨text, held, accepted⟩
    · exact nomatch accepted
  · exact nomatch h

end FileTree

namespace Owned

open Work

variable {F : List (Option Fault)} {r : Rights} {R : FileTree → FileTree → Prop}
  {P : FileTree → Prop}

/-- The text is that of the file, and a folder counts as an empty one. -/
theorem triple_existing (path : Bytes) :
    Triple F R P (existing path) fun before t =>
      P t ∧ (before = some [] ∨ t.textOf? path = before) := by
  refine triple_tree fun t start => ?_
  split
  · split
    · next text held =>
      refine triple_pure ?_
      rintro _ rfl
      refine ⟨start, ?_⟩
      by_cases empty : text = []
      · exact Or.inl (congrArg some empty)
      · exact Or.inr (FileTree.textOf?_of_read held empty)
    · exact triple_fail _ _ _
  · next missing =>
    refine triple_pure ?_
    rintro _ rfl
    exact ⟨start, Or.inr (FileTree.textOf?_of_not_holds (Bool.eq_false_iff.mpr missing))⟩

theorem triple_makeParent {tag path : Bytes} (grow : ∀ t folder, R t (t.makeFolders folder).2) :
    Triple F R P (makeParent tag path) fun _ u => ∃ t, P t ∧ FileTree.Grows t u := by
  unfold makeParent
  dsimp only
  split
  · refine triple_pure fun t start => ?_
    exact ⟨t, start, FileTree.Grows.refl t⟩
  · refine (triple_makeFolders (grow · _) fun _ => triple_fail _ _ _).mono (fun _ h => h) ?_
    rintro _ u ⟨t, start, made⟩
    have grows := FileTree.grows_makeFolders t (Path.parent path)
    rw [made] at grows
    exact ⟨t, start, grows⟩

/-- A step over trees that making folders takes is taken by a write, if it is taken where the merged
text is put into the file, or what comes to it of this text. -/
theorem triple_write_of {m : Markers} {path name body : Bytes}
    (folders : ∀ t folder, R t (t.makeFolders folder).2)
    (put : ∀ s t u before merged comes, P s → s.textOf? path = before → FileTree.Grows s t →
      Region.merge m before name body = .ok merged → Fault.Arrives F merged comes →
      t.writeFile path comes = .ok u → R t u) :
    Triple F R P (write m path name body) fun _ _ => True := by
  unfold write
  refine (triple_existing path).bind fun before => ?_
  split
  · exact triple_fail _ _ _
  · next merged composed =>
    split
    · exact (Work.triple_write _).bind fun _ => triple_pure fun _ _ => trivial
    · refine (triple_makeParent folders).bind fun _ => Triple.bind (Q := fun _ _ => True)
        (triple_writeFile ?_ (fun _ => triple_fail _ _ _) (triple_fail _ _ _)) ?_
      · rintro comes t u arrives ⟨s, ⟨start, empty | held⟩, grows⟩ written
        -- Nothing is merged into an empty text, so it was no folder that was found.
        · subst empty
          exact absurd rfl (Region.ne_nil_of_merge composed)
        · exact ⟨put s t u before merged comes start held grows composed arrives written, trivial⟩
      · intro _
        exact (Work.triple_write _).bind fun _ => triple_pure fun _ _ => trivial

/-- A step over trees is taken by a removal, if it is taken where a file goes that says of the schema
that it belongs to it. -/
theorem triple_remove_of {m : Markers} {path name : Bytes}
    (gone : ∀ t u text, P t → t.textOf? path = some text → carries m text name = true →
      t.removeFile path = .ok u → R t u) :
    Triple F R P (remove m path name) fun _ _ => True := by
  refine triple_tree fun t start => ?_
  split
  · exact triple_pure fun _ _ => trivial
  · split
    · exact triple_throw _
    · next text read =>
      split
      · next own =>
        have held := FileTree.textOf?_of_read read (Region.ne_nil_of_carries own)
        refine Triple.bind (Q := fun _ _ => True) (triple_commit ?_ fun _ => triple_fail _ _ _) ?_
        · rintro u removed _ rfl
          exact ⟨gone _ u text start held own removed, trivial⟩
        · intro _
          exact (Work.triple_write _).bind fun _ => triple_pure fun _ _ => trivial
      · exact (Work.triple_write _).bind fun _ => triple_pure fun _ _ => trivial

/-- Bringing a file up to date creates it or replaces what stands between its markers, unless the
disk is full. -/
theorem triple_write (path : Bytes) {name : Bytes} (body : Bytes) (may : r.mayWrite name) :
    Triple r.faults (Change r) (fun t => t.Settled path) (write r.markers path name body)
      fun _ _ => True := by
  refine triple_write_of Change.of_makeFolders fun s t u before merged comes settled held grows
    composed arrives written => ?_
  -- Making the parent has changed no text, so what was merged is still what the file holds.
  have text : t.textOf? path = before := by
    rw [FileTree.textOf?_of_grows settled grows, held]
  obtain ⟨p, placed, only, here⟩ := FileTree.writeFile_spec written
  rw [FileTree.textOf?_of_place placed] at text
  refine Change.of_onlyAt only ?_
  rcases here with new | kept
  · rw [new, text]
    cases before with
    | none => exact .created comes
    | some old =>
      rcases arrives with rfl | ⟨room, full, short, rfl⟩
      · exact .merged may composed
      · exact .cut may composed full short
  · rw [kept]
    exact .kept _

/-- Removing a file removes one that says that it belongs to the schema. -/
theorem triple_remove (path : Bytes) {name : Bytes} (may : r.mayRemove name) :
    Triple F (Change r) (fun _ => True) (remove r.markers path name) fun _ _ => True := by
  refine triple_remove_of fun t u text _ held own removed => ?_
  obtain ⟨p, placed, only, gone⟩ := FileTree.removeFile_spec removed
  rw [FileTree.textOf?_of_place placed] at held
  refine Change.of_onlyAt only ?_
  rw [gone, held]
  exact .removed may own

/-- A file that was moved is there. -/
theorem triple_findMoved (m : Markers) (root fileName name skip : Bytes) :
    Triple F R P (findMoved m root fileName name skip) fun found t =>
      P t ∧ ∀ path, found = some path → ∃ text, t.textOf? path = some text := by
  refine triple_tree fun t start => ?_
  split
  · refine triple_pure ?_
    rintro _ rfl
    exact ⟨start, fun _ equal => by cases equal⟩
  · next path others found =>
    refine (Work.triple_write _).bind fun _ => triple_pure ?_
    rintro _ rfl
    refine ⟨start, ?_⟩
    rintro _ ⟨⟩
    obtain ⟨text, read, own⟩ := FileTree.read_of_mem_search (found ▸ List.mem_cons_self)
    exact ⟨text, FileTree.textOf?_of_read read (Region.ne_nil_of_carries own)⟩

end Owned

end HeaderForge
