import HeaderForge.Proofs.Files.Repeating
/-!
# Steps that spare a file

Whether it succeeds or fails, a step on other paths leaves a file as it is. So does a write or a
removal for a schema on the path of the file itself, if the file is there and does not say that it
belongs to a schema.

1. `FileTree.Spares` is what such a step does.
2. `Owned.triple_write_sparing` and `Owned.triple_remove_sparing` are writes and removals.
-/

namespace HeaderForge

namespace FileTree

/-- Folders stay, names stay free of zero bytes, and the file at a place stays as it is. -/
structure Spares (p : Place) (t u : FileTree) : Prop where
  keeps : Keeps t u
  named : t.Named → u.Named
  text : u.textAt? p = t.textAt? p

variable {t u v : FileTree} {p : Place} {path text : Bytes}

theorem Spares.refl (p : Place) (t : FileTree) : Spares p t t := ⟨Keeps.refl t, id, rfl⟩

theorem Spares.trans (first : Spares p t u) (second : Spares p u v) : Spares p t v :=
  ⟨first.keeps.trans second.keeps, fun named => second.named (first.named named),
    second.text.trans first.text⟩

/-- There is no file at the root. -/
theorem spares_root (keeps : Keeps t u) (named : t.Named → u.Named) : Spares [] t u :=
  ⟨keeps, named, rfl⟩

theorem spares_makeFolders (p : Place) (t : FileTree) (path : Bytes) :
    Spares p t (t.makeFolders path).2 :=
  ⟨(grows_makeFolders t path).keeps, fun named => named.makeFolders path,
    (grows_makeFolders t path).text p⟩

theorem spares_writeFile (h : t.writeFile path text = .ok u) (other : p ≠ t.namedPlace path) :
    Spares p t u := by
  obtain ⟨q, placed, only, _⟩ := writeFile_spec h
  exact ⟨only.keeps, fun named => named.writeFile h, only.other p (eq_namedPlace placed ▸ other)⟩

theorem spares_removeFile (h : t.removeFile path = .ok u) (other : p ≠ t.namedPlace path) :
    Spares p t u := by
  obtain ⟨q, placed, free, rfl⟩ := eq_erase_of_removeFile h
  have only := onlyAt_erase free
  exact ⟨only.keeps, fun named => named.erase free, only.other p (eq_namedPlace placed ▸ other)⟩

end FileTree

namespace Work

open FileTree (Spares)

variable {α : Type} {p : Place} {P : FileTree → Prop} {m : Work α} {w : Workspace}

/-- However many changes a step goes through, and also where it fails. -/
theorem Triple.spares {Q : α → FileTree → Prop} (h : Triple w.files.faults (Spares p) P m Q)
    (start : P w.tree) : Spares p w.tree (m.run.run w).2.tree :=
  (h w (List.Subset.refl _) start).2.1.preserves (S := Spares p w.tree)
    (fun _ _ => Spares.trans) (Spares.refl p w.tree)

theorem Triple.breaks {Q : α → FileTree → Prop} (h : Triple w.files.faults (Spares p) P m Q)
    (start : P w.tree) : Breaks m w (Spares p w.tree) := by
  intro e u run
  have spared := h.spares start
  rwa [run] at spared

end Work

/-! ## Files of no schema -/

/-- Whether a text, if there is one, says of no schema that it belongs to it. -/
def Unowned (text? : Option Bytes) : Prop :=
  ∀ text name, text? = some text → carries Markers.standard text name = false

/-- Whether no new file comes to a place through a path. -/
structure Misses (p : Place) (path : Bytes) (t : FileTree) : Prop where
  settled : t.Settled path
  other : ∀ q, t.place path = .ok q → ¬ t.IsFolder q → t.textAt? q = none → p ≠ q

namespace Owned

open Work
open FileTree (Spares)

variable {F : List (Option Fault)} {p : Place} {path name body : Bytes}

/-- A write does not fall on a file that says of no schema that it belongs to it. -/
theorem triple_write_sparing :
    Triple F (Spares p) (fun t => Misses p path t ∧ Unowned (t.textAt? p))
      (write Markers.standard path name body) fun _ _ => True := by
  refine triple_write_of (FileTree.spares_makeFolders p) fun s t u before merged _ start held grows
    composed _ written => ?_
  obtain ⟨misses, unowned⟩ := start
  refine FileTree.spares_writeFile written ?_
  rintro rfl
  obtain ⟨q, placed, free, _⟩ := FileTree.eq_put_of_writeFile written
  have same := misses.settled _ grows.keeps
  have here := same.symm.trans placed
  rw [← FileTree.eq_namedPlace placed] at unowned
  rw [FileTree.textOf?_of_place here] at held
  -- What is there has to be the file of the schema, and where nothing is it is not here.
  cases before with
  | none =>
    refine misses.other q here (fun folder => free (grows.keeps.folder q folder)) held ?_
    exact (FileTree.eq_namedPlace placed).symm
  | some old =>
    have own := (Region.merge_of_some composed).1
    exact nomatch (unowned old name held).symm.trans own

theorem triple_remove_sparing : Triple F (Spares p) (fun t => Unowned (t.textAt? p))
    (remove Markers.standard path name) fun _ _ => True := by
  refine triple_remove_of fun t u text unowned held own removed => ?_
  refine FileTree.spares_removeFile removed ?_
  rintro rfl
  exact nomatch (unowned _ name (FileTree.textAt?_of_textOf? held)).symm.trans own

end Owned

end HeaderForge
