import HeaderForge.Proofs.Files.Children
import HeaderForge.Proofs.Files.Owned
import HeaderForge.Proofs.Files.RegionLens
/-!
# Doing to a file what was done before

What a write has put into a file stays what it is when the same part is written again, and a file
that was left alone or removed for a schema is nothing to be removed for it any more.

1. `Region.merge_again`: a merge of what was merged changes nothing, whatever the file holds.
2. `Owned.gives_write` and `Owned.gives_remove` say what a file is like after a write and after a
   removal.
3. `Owned.triple_write_again` and `Owned.triple_remove_again`: the next ones change no file.
-/

namespace HeaderForge

/-! ## Merging again -/

namespace Region

variable {m : Markers} {name body : Bytes}

/-- The text around the generated part of a file that holds nothing else. -/
theorem composeNew_eq (m : Markers) (name body : Bytes) :
    composeNew m name body = (m.identityLine name ++ [byte '\n'] ++ (m.opening ++ [byte '\n'])) ++
      ended body ++ (m.closing ++ [byte '\n']) := by
  simp [composeNew, List.append_assoc]

/-- The line that opens the generated part of a new file, and the one that closes it. -/
def openingLine : Bytes := Markers.standard.opening ++ [byte '\n']
def closingLine : Bytes := Markers.standard.closing ++ [byte '\n']

theorem marks_openingLine (offset : Nat) : marks Markers.standard offset (lines openingLine) =
    [⟨.opening, offset, offset + openingLine.length⟩] := by
  have single : lines openingLine = [openingLine] := by decide
  have kind : markKind? Markers.standard openingLine = some .opening := by decide
  simp [single, marks, kind]

theorem marks_closingLine (offset : Nat) : marks Markers.standard offset (lines closingLine) =
    [⟨.closing, offset, offset + closingLine.length⟩] := by
  have single : lines closingLine = [closingLine] := by decide
  have kind : markKind? Markers.standard closingLine = some .closing := by decide
  simp [single, marks, kind]

/-- Where two single marks are among all marks, and there are two in all, there are no others. -/
theorem eq_nil_of_two {before between : List Mark} {a b x y : Mark}
    (h : before ++ a :: (between ++ [b]) = [x, y]) : before = [] ∧ between = [] := by
  have lengths := congrArg List.length h
  simp only [List.length_append, List.length_cons, List.length_nil] at lengths
  constructor
  · exact List.length_eq_zero_iff.mp (by omega)
  · exact List.length_eq_zero_iff.mp (by omega)

/-- If the markers of a new file are the only ones in it, its generated part is between them. -/
theorem locate_composeNew {front : Bytes} {r : Region}
    (split : front = Markers.standard.identityLine name ++ [byte '\n'] ++ openingLine)
    (h : locate (front ++ ended body ++ closingLine) Markers.standard = .ok r) :
    r = ⟨front.length, front.length + (ended body).length⟩ := by
  have endsName : Ended (Markers.standard.identityLine name ++ [byte '\n']) := Ended.feed _
  have endsFront : Ended front := split ▸ endsName.append (Ended.feed _)
  have equal : marks Markers.standard 0 (lines (front ++ ended body ++ closingLine)) =
      marks Markers.standard 0 (lines (Markers.standard.identityLine name ++ [byte '\n'])) ++
        ⟨.opening, (Markers.standard.identityLine name ++ [byte '\n']).length, front.length⟩ ::
          (marks Markers.standard front.length (lines (ended body)) ++
            [⟨.closing, front.length + (ended body).length,
              front.length + (ended body).length + closingLine.length⟩]) := by
    rw [lines_append (endsFront.append (Ended.ended body)), lines_append endsFront, split,
      lines_append endsName, marks_append, marks_append, marks_append]
    simp only [List.flatten_append, flatten_lines, Nat.zero_add, marks_openingLine,
      marks_closingLine, List.length_append]
    simp
  rw [locate_eq_of_marks, equal] at h
  generalize marks Markers.standard 0 (lines (Markers.standard.identityLine name ++ [byte '\n'])) =
    first at h
  generalize marks Markers.standard front.length (lines (ended body)) = others at h
  split at h
  · next _ next stop _ two =>
    obtain ⟨rfl, rfl⟩ := eq_nil_of_two two
    cases two
    cases h
    rfl
  · cases h

/-- What came of merging a body holds it between a front and a back, where it can only be found
again. -/
theorem parts_of_merge {before : Option Bytes} {new : Bytes}
    (merged : merge Markers.standard before name body = .ok new) :
    ∃ front back, new = front ++ ended body ++ back ∧ Ended front ∧
      ∀ r, locate new Markers.standard = .ok r →
        r = ⟨front.length, front.length + (ended body).length⟩ := by
  cases before with
  | none =>
    cases merged
    refine ⟨_, closingLine, composeNew_eq _ _ _, (Ended.feed _).append (Ended.feed _), ?_⟩
    rw [composeNew_eq]
    exact fun r found => locate_composeNew rfl found
  | some t =>
    obtain ⟨-, r, found, rfl⟩ := merge_of_some merged
    obtain ⟨inner, cut⟩ := cut_of_locate found
    have ends := (cut.lines_with (Ended.ended body)).1
    rw [splice, ended_of_ended ends]
    exact ⟨_, _, rfl, ends, fun r' found' => cut.locate_eq (Ended.ended body) found'⟩

/-- Merging a body into the text that came of merging it changes nothing. -/
theorem merge_again {before : Option Bytes} {new again : Bytes}
    (merged : merge Markers.standard before name body = .ok new)
    (h : merge Markers.standard (some new) name body = .ok again) : again = new := by
  obtain ⟨front, back, equal, ends, only⟩ := parts_of_merge merged
  obtain ⟨-, r, found, rfl⟩ := merge_of_some h
  rw [only r found, equal, splice_between ends]

end Region

/-! ## Texts of paths -/

namespace FileTree

variable {t u : FileTree} {path text : Bytes} {p : Place}

theorem textAt?_of_textOf? (h : t.textOf? path = some text) :
    t.textAt? (t.namedPlace path) = some text := by
  obtain ⟨p, placed, file⟩ := file_of_textOf? h
  rw [← eq_namedPlace placed]
  exact textAt?_of_file file

theorem holds_of_textOf? (h : (t.textOf? path).isSome) : t.holds path = true := by
  by_contra missing
  rw [textOf?_of_not_holds (Bool.eq_false_iff.mpr missing)] at h
  exact nomatch h

/-- The text of the only place that a path can lead to is that of the path, if it leads there. -/
theorem textOf?_of_keeps (settled : t.Settled path) (keeps : Keeps t u)
    (same : u.textAt? (t.namedPlace path) = t.textAt? (t.namedPlace path)) :
    u.textOf? path = t.textOf? path := by
  rw [textOf?, textOf?, settled u keeps]
  split
  · next p placed => rw [eq_namedPlace placed, same]
  · rfl

end FileTree

/-! ## Writes -/

/-- After a write the file that the path leads to has the text, and no other has changed. -/
structure FileTree.Puts (path text : Bytes) (t u : FileTree) : Prop where
  keeps : Keeps t u
  named : t.Named → u.Named
  text : u.textOf? path = some text
  other : ∀ p, p ≠ t.namedPlace path → u.textAt? p = t.textAt? p

namespace Owned

open Work

variable {m : Markers} {path name body : Bytes} {w : Workspace}

/-- A folder counts as an empty text. -/
theorem gives_existing (path : Bytes) (w : Workspace) :
    Gives (existing path) w fun before u =>
      u = w ∧ (before = some [] ∨ w.tree.textOf? path = before) := by
  refine gives_tree ?_
  split
  · split
    · next text held =>
      refine Gives.pure ⟨rfl, ?_⟩
      by_cases empty : text = []
      · exact Or.inl (congrArg some empty)
      · exact Or.inr (FileTree.textOf?_of_read held empty)
    · exact gives_fail _ _ _
  · next missing =>
    exact Gives.pure ⟨rfl, Or.inr (FileTree.textOf?_of_not_holds (Bool.eq_false_iff.mpr missing))⟩

/-- Making folders goes on with all texts, and with names as there were. -/
theorem gives_makeFolders {path : Bytes} {refused : FileError → Work Unit}
    (fails : ∀ e v, Gives (refused e) v fun _ _ => False) (w : Workspace) :
    Gives (makeFolders path refused) w fun _ u =>
      w.tree.makeFolders path = (none, u.tree) := by
  refine gives_tree ?_
  cases made : w.tree.makeFolders path with
  | mk refusal t =>
    refine (Gives.modify (Q := fun _ u => u.tree = t) rfl).bind fun _ u same => ?_
    cases refusal with
    | none => exact Gives.pure (by rw [same])
    | some e => exact (fails e u).mono fun _ _ no => no.elim

theorem gives_makeParent (tag path : Bytes) (w : Workspace) :
    Gives (makeParent tag path) w fun _ u =>
      FileTree.Grows w.tree u.tree ∧ (w.tree.Named → u.tree.Named) ∧
        (Path.parent path ≠ [] → w.tree.makeFolders (Path.parent path) = (none, u.tree)) := by
  unfold makeParent
  dsimp only
  split
  · next none =>
    exact Gives.pure ⟨FileTree.Grows.refl _, id, fun some => absurd (by simpa using none) some⟩
  · refine (gives_makeFolders (fun _ _ => gives_fail _ _ _) w).mono fun _ u made => ?_
    have grows := FileTree.grows_makeFolders w.tree (Path.parent path)
    have named := fun h : w.tree.Named => h.makeFolders (Path.parent path)
    rw [made] at grows named
    exact ⟨grows, named, fun _ => made⟩

/-- A write that succeeds has merged the part into what the file held. -/
theorem gives_write (settled : w.tree.Settled path) :
    Gives (write m path name body) w fun _ u => ∃ text,
      Region.merge m (w.tree.textOf? path) name body = .ok text ∧
        FileTree.Puts path text w.tree u.tree := by
  unfold write
  refine (gives_existing path w).bind fun before v ⟨start, found⟩ => ?_
  subst start
  split
  · exact gives_fail _ _ _
  · next merged composed =>
    have held : v.tree.textOf? path = before := by
      rcases found with rfl | held
      · exact absurd rfl (Region.ne_nil_of_merge composed)
      · exact held
    rw [← held] at composed
    split
    · next same =>
      refine gives_after_write fun u files => Gives.pure ⟨merged, composed, ?_⟩
      have tree : u.tree = v.tree := congrArg Disk.current files
      rw [tree]
      exact ⟨FileTree.Keeps.refl _, id, held.trans same, fun _ _ => rfl⟩
    · refine (gives_makeParent _ _ v).bind fun _ u ⟨grows, named, _⟩ => ?_
      refine Gives.bind (Q := fun _ u' => FileTree.Puts path merged v.tree u'.tree)
        (gives_writeFile ?_ (fun _ _ => gives_fail _ _ _) fun _ => gives_fail _ _ _) ?_
      · intro x _ written
        obtain ⟨p, placed, only, _⟩ := FileTree.writeFile_spec written
        refine ⟨grows.keeps.trans only.keeps, fun h => (named h).writeFile written, ?_, ?_⟩
        · exact FileTree.textOf?_of_writeFile written
        · intro q other
          have here := FileTree.eq_namedPlace placed
          rw [FileTree.namedPlace_of_keeps grows.keeps] at here
          exact (only.other q (here ▸ other)).trans (grows.text q)
      · intro _ u' puts
        refine gives_after_write fun u'' files => Gives.pure ⟨merged, composed, ?_⟩
        have tree : u''.tree = u'.tree := congrArg Disk.current files
        rwa [tree]

variable {F : List (Option Fault)} {R : FileTree → FileTree → Prop} {P : FileTree → Prop}

/-- Writing a part that the file has already changes no file, whether it is refused or not. -/
theorem triple_write_again {text : Bytes} (holds : ∀ t, P t → t.textOf? path = some text)
    (same : ∀ again, Region.merge m (some text) name body = .ok again → again = text) :
    Triple F R P (write m path name body) fun _ => P := by
  unfold write
  refine (triple_existing path).bind fun before => ?_
  split
  · exact (triple_fail _ _ _).mono (fun _ h => h.1) fun _ _ h => h
  · next merged composed =>
    refine Triple.mono (P := fun t => before = some text ∧ P t) (triple_of_fact fun known => ?_)
      (fun t ⟨start, found⟩ => ⟨?_, start⟩) fun _ _ h => h
    · subst known
      rw [if_pos (congrArg some (same merged composed).symm)]
      exact (Work.triple_write _).bind fun _ => triple_pure fun _ h => h
    · rcases found with rfl | held
      · exact absurd rfl (Region.ne_nil_of_merge composed)
      · exact held.symm.trans (holds t start)

/-! ## Removals -/

/-- A removal that succeeds leaves no file that could be removed for the schema. -/
structure Clears (m : Markers) (path name : Bytes) (t u : FileTree) : Prop where
  keeps : FileTree.Keeps t u
  named : t.Named → u.Named
  others : ∀ text, u.textOf? path = some text → carries m text name = false

theorem clears_of_removeFile {t u : FileTree} (removed : t.removeFile path = .ok u) :
    Clears m path name t u := by
  obtain ⟨p, placed, free, rfl⟩ := FileTree.eq_erase_of_removeFile removed
  have keeps := (FileTree.onlyAt_erase free).keeps
  have stays := (FileTree.settled_of_place placed _ keeps).trans placed
  have gone := FileTree.at?_erase_self t (FileTree.ne_root_of_not_isFolder free)
  refine ⟨keeps, fun h => h.erase free, fun text held => ?_⟩
  rw [FileTree.textOf?_of_place stays, FileTree.textAt?_of_none gone] at held
  exact nomatch held

theorem gives_remove (m : Markers) (path name : Bytes) (w : Workspace) :
    Gives (remove m path name) w fun _ u => Clears m path name w.tree u.tree := by
  have unchanged : ∀ u : Workspace, u.files = w.files →
      (∀ text, w.tree.textOf? path = some text → carries m text name = false) →
      Clears m path name w.tree u.tree := by
    intro u files others
    have tree : u.tree = w.tree := congrArg Disk.current files
    rw [tree]
    exact ⟨FileTree.Keeps.refl _, id, others⟩
  refine gives_tree ?_
  split
  · next missing =>
    refine Gives.pure (unchanged w rfl fun text held => ?_)
    cases (FileTree.textOf?_of_not_holds (by simpa using missing)).symm.trans held
  · split
    · exact Gives.throw _
    · next text read =>
      split
      · refine Gives.bind (Q := fun _ u => Clears m path name w.tree u.tree)
          (gives_commit (fun _ => clears_of_removeFile) fun _ _ => gives_fail _ _ _) ?_
        intro _ u done
        refine gives_after_write fun u' files => Gives.pure ?_
        have tree : u'.tree = u.tree := congrArg Disk.current files
        rwa [tree]
      · next other =>
        refine gives_after_write fun u files => Gives.pure (unchanged u files fun held there => ?_)
        cases (FileTree.read_of_textOf? there).symm.trans read
        simpa using other

/-- Where nothing is to be removed, nothing is. -/
theorem triple_remove_again
    (others : ∀ t, P t → ∀ text, t.textOf? path = some text → carries m text name = false) :
    Triple F R P (remove m path name) fun _ => P := by
  refine triple_tree fun t start => ?_
  have back : ∀ u, u = t → P u := fun u same => same ▸ start
  split
  · exact triple_pure back
  · split
    · exact triple_throw _
    · next text read =>
      split
      · next own =>
        have held := FileTree.textOf?_of_read read (Region.ne_nil_of_carries own)
        rw [others t start text held] at own
        exact nomatch own
      · exact (Work.triple_write _).bind fun _ => triple_pure back

end Owned

end HeaderForge
