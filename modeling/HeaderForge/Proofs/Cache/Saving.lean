import HeaderForge.Proofs.Cache
import HeaderForge.Proofs.Files.Repeating
/-!
# Files beside the record

The record is written to a file beside it first, which then replaces it. Where that succeeds the
file beside it is gone again, and no other file has changed. To save the same record once more
changes nothing, whether it succeeds or not, unless the system refuses to take the file beside it
away.

1. `Cache.gives_save_alone` says what has become of the files where a record was saved.
2. `Cache.Discards` says when files stay as they are, and `Cache.leaves_save_again` that they do the
   next time.
-/

namespace HeaderForge

namespace FileTree

variable {t u : FileTree} {p : Place} {path text : Bytes}

theorem removeFile_of_file (placed : t.place path = .ok p) (held : t.at? p = some (.file text)) :
    t.removeFile path = .ok (t.erase p) := by
  simp only [removeFile, placed, bind, Except.bind, held]

/-- A file that was moved to another place is gone from where it was. -/
theorem gone_of_replaceFile {source target : Bytes} (h : t.replaceFile source target = .ok u)
    (differ : t.namedPlace source ≠ t.namedPlace target) :
    u.textAt? (t.namedPlace source) = none := by
  obtain ⟨p, q, text, _, placed, aimed, noFolder, free, rfl⟩ := eq_put_of_replaceFile h
  rw [← eq_namedPlace placed, ← eq_namedPlace aimed] at differ
  rw [← eq_namedPlace placed, (onlyAt_put (Entry.bare_file text) free).other p differ]
  exact textAt?_of_none (at?_erase_self t (ne_root_of_not_isFolder noFolder))

end FileTree

namespace Cache

open Work

variable {c : Cache} {w : Workspace} {dir text : Bytes}

theorem temporary_eq (file : c.file = Path.child dir fileName) :
    c.temporary = Path.child dir (fileName ++ bytes ".tmp") := by
  rw [temporary, file, Path.child_append]

theorem isName_fileName : Path.IsName fileName := ⟨by decide, by decide, by decide⟩

theorem isName_temporary : Path.IsName (fileName ++ bytes ".tmp") :=
  ⟨by decide, by decide, by decide⟩

theorem namedPlace_temporary_ne (file : c.file = Path.child dir fileName) (whole : 0 ∉ dir)
    (t : FileTree) : t.namedPlace c.temporary ≠ t.namedPlace c.file := by
  rw [temporary_eq file, file]
  exact t.namedPlace_child_ne whole whole isName_temporary isName_fileName (by decide)

/-! ## Saving -/

/-- Files stay as they are when a record is saved, but for the record. -/
structure SavesAlone (c : Cache) (t u : FileTree) : Prop where
  keeps : FileTree.Keeps t u
  named : u.Named
  gone : u.textAt? (t.namedPlace c.temporary) = none
  other : ∀ p, p ≠ t.namedPlace c.temporary → p ≠ t.namedPlace c.file → u.textAt? p = t.textAt? p

/-- The path of a file that was written in the folder of the record is looked up whole. If it were
not, it would lead to that folder. -/
theorem zero_not_mem_of_writeFile {t u v : FileTree} (file : c.file = Path.child dir fileName)
    (named : t.Named)
    (made : Path.parent c.file ≠ [] → t.makeFolders (Path.parent c.file) = (none, u))
    (written : u.writeFile c.temporary text = .ok v) : 0 ∉ dir := by
  intro zero
  obtain ⟨proper, looked⟩ := Path.lookedUp_parent_child zero isName_fileName.plain
  rw [← file] at proper looked
  obtain ⟨d, placed, folder⟩ := FileTree.place_of_makeFolders named (made proper)
  obtain ⟨p, placed', free, _⟩ := FileTree.eq_put_of_writeFile written
  have same : u.place c.temporary = u.place (Path.parent c.file) := by
    refine FileTree.place_eq_of_lookedUp ?_
    rw [looked, file, temporary_eq file, Path.lookedUp_child zero, Path.lookedUp_child zero]
  cases placed'.symm.trans (same.trans placed)
  exact free folder

theorem gives_save_alone (file : c.file = Path.child dir fileName) (named : w.tree.Named) :
    Gives c.save w fun _ u => 0 ∉ dir ∧ SavesAlone c w.tree u.tree := by
  unfold save
  refine (Owned.gives_makeParent tag c.file w).bind fun _ v ⟨grows, stays, made⟩ => ?_
  refine Gives.bind (Q := fun _ u => 0 ∉ dir ∧ u.tree.Named ∧
    FileTree.OnlyAt (w.tree.namedPlace c.temporary) v.tree u.tree)
    (gives_writeFile (fun u _ written => ?_) (fun _ _ => gives_fail _ _ _) fun u => ?_) ?_
  · obtain ⟨p, placed, only, _⟩ := FileTree.writeFile_spec written
    rw [← FileTree.namedPlace_of_keeps grows.keeps, ← FileTree.eq_namedPlace placed]
    exact ⟨zero_not_mem_of_writeFile file named made written, (stays named).writeFile written, only⟩
  · exact gives_after_write fun x _ => (Gives.any _ x).bind fun _ x _ => Gives.throw _
  · rintro _ u ⟨whole, named, only⟩
    have keeps := grows.keeps.trans only.keeps
    refine (gives_replaceRecord c u).bind fun _ x replaced => ?_
    have places := FileTree.namedPlace_of_keeps keeps
    obtain ⟨p, q, source, target, kept, same⟩ := FileTree.replaceFile_spec replaced
    rw [FileTree.eq_namedPlace source, FileTree.eq_namedPlace target, places, places] at same
    have gone := FileTree.gone_of_replaceFile replaced (namedPlace_temporary_ne file whole u.tree)
    rw [places] at gone
    refine Gives.modify ⟨whole, keeps.trans kept, named.replaceFile replaced, gone,
      fun r notBeside notRecord => ?_⟩
    exact (same r notBeside notRecord).trans ((only.other r notBeside).trans (grows.text r))

/-! ## Saving again -/

/-- The file beside the record is gone, unless that is refused, and the others are as they were. -/
structure Discards (c : Cache) (w : Workspace) (u : FileTree) : Prop where
  gone : w.files.Permits → u.textAt? (w.tree.namedPlace c.temporary) = none
  other : ∀ p, p ≠ w.tree.namedPlace c.temporary → u.textAt? p = w.tree.textAt? p

/-- What is done to the file beside the record before it is discarded does not matter. -/
theorem Discards.of_later {v : Workspace} {u : FileTree} (h : Discards c v u)
    (place : v.tree.namedPlace c.temporary = w.tree.namedPlace c.temporary)
    (left : v.files.faults ⊆ w.files.faults)
    (other : ∀ p, p ≠ w.tree.namedPlace c.temporary → v.tree.textAt? p = w.tree.textAt? p) :
    Discards c w u := by
  have gone := h.gone
  have same := h.other
  rw [place] at gone same
  refine ⟨fun permits => gone fun e later => permits e (left later), fun p apart => ?_⟩
  exact (same p apart).trans (other p apart)

theorem leaves_discardTemporary (beside : w.tree.textOf? c.temporary = some text) :
    Leaves c.discardTemporary w (Discards c w) := by
  obtain ⟨p, placed, file⟩ := FileTree.file_of_textOf? beside
  have free := FileTree.not_isFolder_of_file file
  refine leaves_tree (leaves_commit (fun t removed => ?_) fun e u same _ refused => ?_)
  · cases (FileTree.removeFile_of_file placed file).symm.trans removed
    rw [FileTree.eq_namedPlace placed] at free ⊢
    refine ⟨fun _ => ?_, (FileTree.onlyAt_erase free).other⟩
    exact FileTree.textAt?_of_none
      (FileTree.at?_erase_self w.tree (FileTree.ne_root_of_not_isFolder free))
  · show Discards c w u.tree
    rw [same]
    refine ⟨fun permits => ?_, fun _ _ => rfl⟩
    rcases refused with never | met
    · exact nomatch (FileTree.removeFile_of_file placed file).symm.trans never
    · exact absurd met (permits e)

/-- Where an error is logged, the file beside the record is discarded, and the step fails. -/
theorem leaves_discarding (line : LogLine) (beside : w.tree.textOf? c.temporary = some text) :
    Leaves (do Work.write line; c.discardTemporary; throw .writeFailed : Work Unit) w
      (Discards c w) := by
  refine Leaves.bind (Returns.breaks (returns_write line w)) (Gives.modify ?_)
  have discarded := leaves_discardTemporary (c := c) (w := { w with log := w.log.write line }) beside
  refine (discarded.mono fun t done => ?_).andThen fun _ _ done => leaves_of_files rfl done
  exact done.of_later rfl (List.Subset.refl _) fun _ _ => rfl

/-- Replacing a record by the same one takes the file beside it away, and so does not replacing
it. -/
theorem leaves_replaceRecord (differ : w.tree.namedPlace c.temporary ≠ w.tree.namedPlace c.file)
    (beside : w.tree.textOf? c.temporary = some text) (held : w.tree.textOf? c.file = some text) :
    Leaves c.replaceRecord w (Discards c w) := by
  refine leaves_tree (leaves_commit (fun t replaced => ?_) fun e u same left _ => ?_)
  · obtain ⟨p, q, source, target, keeps, other⟩ := FileTree.replaceFile_spec replaced
    refine ⟨fun _ => FileTree.gone_of_replaceFile replaced differ, fun r apart => ?_⟩
    by_cases record : r = w.tree.namedPlace c.file
    · have now := FileTree.textAt?_of_textOf? (FileTree.textOf?_of_replaceFile beside replaced)
      rw [FileTree.namedPlace_of_keeps keeps] at now
      rw [record, FileTree.textAt?_of_textOf? held]
      exact now
    · rw [FileTree.eq_namedPlace source, FileTree.eq_namedPlace target] at other
      exact other r apart record
  · refine (leaves_discarding _ (same ▸ beside)).mono fun t done => ?_
    exact done.of_later (by rw [same]) left fun _ _ => by rw [same]

/-- Once the folder of a record is there, writing beside the record changes that one file, and what
is discarded after it might have been discarded before. -/
theorem discards_of_writeFile {comes : Bytes} {u v : Workspace}
    (grows : FileTree.Grows w.tree v.tree) (wrote : v.tree.writeFile c.temporary comes = .ok u.tree)
    (left : u.files.faults ⊆ w.files.faults) :
    FileTree.Keeps w.tree u.tree ∧
      (∀ p, p ≠ w.tree.namedPlace c.temporary → u.tree.textAt? p = w.tree.textAt? p) ∧
      ∀ t, Discards c u t → Discards c w t := by
  obtain ⟨p, placed, only, _⟩ := FileTree.writeFile_spec wrote
  have here : p = w.tree.namedPlace c.temporary := by
    rw [FileTree.eq_namedPlace placed, FileTree.namedPlace_of_keeps grows.keeps]
  have keeps := grows.keeps.trans only.keeps
  have other : ∀ q, q ≠ w.tree.namedPlace c.temporary → u.tree.textAt? q = w.tree.textAt? q :=
    fun q apart => (only.other q (here ▸ apart)).trans (grows.text q)
  refine ⟨keeps, other, fun t done => ?_⟩
  exact done.of_later (FileTree.namedPlace_of_keeps keeps _) left other

theorem leaves_save_again
    (held : w.tree.textOf? c.file = some (CacheRecord.text ⟨c.style, c.pending⟩))
    (gone : w.tree.textAt? (w.tree.namedPlace c.temporary) = none) :
    Leaves c.save w (Discards c w) := by
  have differ : w.tree.namedPlace c.temporary ≠ w.tree.namedPlace c.file := by
    intro same
    rw [same, FileTree.textAt?_of_textOf? held] at gone
    exact nomatch gone
  -- As long as nothing but folders is made, what is there is as it would be left.
  have still : ∀ u, FileTree.Grows w.tree u → Discards c w u := fun u grows =>
    ⟨fun _ => (grows.text _).trans gone, fun p _ => grows.text p⟩
  have parent : Triple w.files.faults FileTree.Grows (fun t => t = w.tree)
      (Owned.makeParent tag c.file) _ := Owned.triple_makeParent FileTree.grows_makeFolders
  refine parent.leaves_bind rfl still fun _ v left grows _ => ?_
  refine Leaves.bind (breaks_writeFile (fun e u same => ?_) fun comes u wrote left' => ?_)
    (gives_writeFile (fun u left' wrote => ?_) (fun _ _ => gives_fail _ _ _) fun u => ?_)
  · exact breaks_fail _ _ _ (same ▸ still _ grows)
  · obtain ⟨_, _, later⟩ := discards_of_writeFile grows wrote (List.Subset.trans left' left)
    exact ((leaves_discarding _ (FileTree.textOf?_of_writeFile wrote)).mono later).breaks
  · obtain ⟨keeps, other, later⟩ := discards_of_writeFile grows wrote
      (List.Subset.trans left' left)
    have places := FileTree.namedPlace_of_keeps keeps
    have record : u.tree.textOf? c.file = w.tree.textOf? c.file :=
      FileTree.textOf?_of_keeps (FileTree.settled_of_textOf? held) keeps (other _ (Ne.symm differ))
    have replaced := leaves_replaceRecord (c := c) (w := u) (by rwa [places, places])
      (FileTree.textOf?_of_writeFile wrote) (record.trans held)
    exact (replaced.mono later).andThen fun _ _ done => leaves_of_files rfl done
  · exact gives_after_write fun x _ => (Gives.any _ x).bind fun _ x _ => Gives.throw _

end Cache

end HeaderForge
