import HeaderForge.Proofs.Cache.Saving
import HeaderForge.Proofs.Document.Inline
import HeaderForge.Proofs.Files.Sparing
/-!
# Records that stay

A record that was saved stays as it is until the next one replaces it. No run takes it for the file
of a schema, and where a record cannot be saved, or only a part of it, the one that is there is left.

1. `CacheRecord.carries_text`: a record says of no schema that it belongs to it.
2. `Cache.returns_save`: a record is saved where nothing is in the way.
3. `Cache.breaks_save`: where it is not, the one that is there is left.
-/

namespace HeaderForge

/-! ## Lines -/

section

variable {α : Type} {p : α → Bool}

theorem exists_dropEndWhile_eq {x : α} (kept : p x = false) (xs ys : List α) :
    ∃ zs, dropEndWhile p (xs ++ x :: ys) = xs ++ x :: zs := by
  induction xs with
  | nil =>
    rw [List.nil_append, dropEndWhile]
    cases dropEndWhile p ys with
    | nil => exact ⟨[], by simp [kept]⟩
    | cons y ys => exact ⟨y :: ys, rfl⟩
  | cons y xs ih =>
    obtain ⟨zs, equal⟩ := ih
    refine ⟨zs, ?_⟩
    rw [List.cons_append, dropEndWhile, equal]
    cases xs <;> rfl

end

/-- A line says something that starts with its first byte that is not blank. -/
theorem exists_lineContent_eq {b : UInt8} {blanks : Bytes} (rest : Bytes)
    (all : blanks.all isSpaceOrTab = true)
    (mark : b = byte '"' ∨ b = byte '\x7b' ∨ b = byte '\x7d') :
    ∃ more, lineContent (blanks ++ b :: rest) = b :: more := by
  have proper : (b == byte '\n') = false ∧ isSpaceOrTab b = false ∧
      (b == byte '\r' || isSpaceOrTab b) = false := by
    rcases mark with rfl | rfl | rfl <;> decide
  obtain ⟨noFeed, noBlank, kept⟩ := proper
  obtain ⟨rest', fed⟩ := exists_dropEndWhile_eq (p := (· == byte '\n')) noFeed blanks rest
  obtain ⟨rest'', trimmed⟩ := exists_dropEndWhile_eq
    (p := fun b => b == byte '\r' || isSpaceOrTab b) kept blanks rest'
  refine ⟨rest'', ?_⟩
  rw [lineContent, fed, trimLine, trimmed,
    List.dropWhile_append_of_pos (List.all_eq_true.mp all)]
  exact List.dropWhile_cons_of_neg (by simp [noBlank])

/-! ## Records are no files of schemas -/

namespace CacheRecord

/-- Whole lines, all of which start with a quote or a brace. -/
structure Laid (t : Bytes) : Prop where
  ended : Ended t
  starts : ∀ content, content ∈ contents t →
    ∃ b more, content = b :: more ∧ (b = byte '"' ∨ b = byte '\x7b' ∨ b = byte '\x7d')

theorem Laid.append {t u : Bytes} (first : Laid t) (second : Laid u) : Laid (t ++ u) := by
  refine ⟨first.ended.append second.ended, fun content member => ?_⟩
  rw [contents_append first.ended] at member
  exact (List.mem_append.mp member).elim (first.starts content) (second.starts content)

theorem laid_line {b : UInt8} (blanks : Bytes) {rest : Bytes} (all : blanks.all isSpaceOrTab = true)
    (mark : b = byte '"' ∨ b = byte '\x7b' ∨ b = byte '\x7d') (whole : byte '\n' ∉ rest) :
    Laid (blanks ++ b :: rest ++ [byte '\n']) := by
  have line : byte '\n' ∉ blanks ++ b :: rest := by
    rw [List.mem_append, List.mem_cons]
    rintro (blank | rfl | rest)
    · exact absurd (List.all_eq_true.mp all _ blank) (by decide)
    · exact absurd mark (by decide)
    · exact whole rest
  refine ⟨Or.inr List.getLast?_concat, fun content member => ?_⟩
  rw [contents, lines_feed line, List.map_singleton, List.mem_singleton, lineContent_feed] at member
  obtain ⟨more, starts⟩ := exists_lineContent_eq rest all mark
  exact ⟨b, more, member.trans starts, mark⟩

theorem laid_entry (entry : Bytes × Bytes) (after : Bytes) (whole : byte '\n' ∉ after) :
    Laid (entryText entry ++ after ++ [byte '\n']) := by
  have text : entryText entry ++ after = bytes "    " ++ byte '"' :: (Quoted.escape entry.1 ++
      [byte '"'] ++ bytes ": " ++ Quoted.quote entry.2 ++ after) := by
    simp [entryText, row, Quoted.quote]
  have quoted := Yaml.feed_not_mem_quote entry.1
  rw [text]
  refine laid_line _ (by decide) (Or.inl rfl) ?_
  simp only [List.mem_append, not_or]
  refine ⟨⟨⟨⟨fun h => quoted ?_, by decide⟩, by decide⟩, Yaml.feed_not_mem_quote entry.2⟩, whole⟩
  exact List.mem_cons_of_mem _ (List.mem_append_left _ h)

theorem laid_entries {hashes : List (Bytes × Bytes)} (some : hashes ≠ []) :
    Laid (Bytes.join ",\n" (hashes.map entryText) ++ [byte '\n']) := by
  induction hashes with
  | nil => exact absurd rfl some
  | cons entry rest ih =>
    cases rest with
    | nil =>
      have last := laid_entry entry [] List.not_mem_nil
      rwa [List.append_nil] at last
    | cons next rest =>
      have first := laid_entry entry (bytes ",") (by decide)
      have whole := first.append (ih (List.cons_ne_nil next rest))
      have text : Bytes.join ",\n" ((entry :: next :: rest).map entryText) ++ [byte '\n'] =
          entryText entry ++ bytes "," ++ [byte '\n'] ++
            (Bytes.join ",\n" ((next :: rest).map entryText) ++ [byte '\n']) := by
        have separator : bytes ",\n" = bytes "," ++ [byte '\n'] := by decide
        simp only [List.map_cons, Bytes.join, List.append_assoc]
        rw [separator, List.append_assoc]
      rw [text]
      exact whole

theorem laid_text (r : CacheRecord) : Laid r.text := by
  have brace : ∀ b, b = byte '\x7b' ∨ b = byte '\x7d' → Laid [b, byte '\n'] := fun b mark =>
    laid_line [] rfl (Or.inr mark) List.not_mem_nil
  have style : Laid (bytes "  " ++ byte '"' :: (bytes "backend\": " ++ Quoted.quote r.style ++
      bytes ",") ++ [byte '\n']) := by
    refine laid_line _ rfl (Or.inl rfl) ?_
    simp only [List.mem_append, not_or]
    exact ⟨⟨by decide, Yaml.feed_not_mem_quote r.style⟩, by decide⟩
  have start := (brace _ (Or.inl rfl)).append style
  have opening : bytes "\x7b\n  \"backend\": " =
      [byte '\x7b', byte '\n'] ++ (bytes "  " ++ byte '"' :: bytes "backend\": ") := by decide
  have next : bytes ",\n  \"schemas\": \x7b" = bytes "," ++ byte '\n' ::
      (bytes "  " ++ byte '"' :: bytes "schemas\": \x7b") := by decide
  unfold text
  rw [opening, next]
  split
  · have none : Laid (bytes "  " ++ byte '"' :: bytes "schemas\": \x7b\x7d" ++ [byte '\n']) :=
      laid_line _ rfl (Or.inl rfl) (by decide)
    have whole := (start.append none).append (brace _ (Or.inr rfl))
    simpa [row, bytes, byte] using whole
  · next some =>
    have first : Laid (bytes "  " ++ byte '"' :: bytes "schemas\": \x7b" ++ [byte '\n']) :=
      laid_line _ rfl (Or.inl rfl) (by decide)
    have last : Laid (bytes "  " ++ byte '\x7d' :: [] ++ [byte '\n']) :=
      laid_line _ rfl (Or.inr (Or.inr rfl)) List.not_mem_nil
    have filled : r.hashes ≠ [] := by simpa using some
    have body := (first.append (laid_entries filled)).append last
    have whole := (start.append body).append (brace _ (Or.inr rfl))
    simpa [row, bytes, byte] using whole

/-- A record says of no schema that it is its file. -/
theorem carries_text (r : CacheRecord) (name : Bytes) :
    carries Markers.standard r.text name = false := by
  rw [carries_eq, List.contains_eq_mem, decide_eq_false_iff_not]
  intro member
  obtain ⟨b, more, equal, mark⟩ := (laid_text r).starts _ member
  cases equal
  exact absurd mark (by decide)

end CacheRecord

/-! ## Operations that succeed -/

namespace FileTree

variable {t u : FileTree} {path source target text : Bytes} {p q : Place}

theorem writeFile_of_place (placed : t.place path = .ok p) (free : ¬ t.IsFolder p) (text : Bytes) :
    t.writeFile path text = .ok (t.put p (.file text)) := by
  simp only [writeFile, placed, bind, Except.bind]
  split
  · next entries held => exact absurd (isFolder_iff.mpr ⟨entries, held⟩) free
  · rfl
  · rfl

/-- Whether the last name of a path can be given to a file. -/
def EndsProper (path : Bytes) : Prop :=
  namesEntry (Path.lookedUp path) = true ∧ (Path.lookedUp path).getLast? ≠ some Path.slash

theorem exists_replaceFile (held : t.textOf? source = some text) (aimed : t.place target = .ok q)
    (free : ¬ t.IsFolder q) (proper : EndsProper target) :
    ∃ u, t.replaceFile source target = .ok u := by
  obtain ⟨p, placed, file⟩ := file_of_textOf? held
  simp only [replaceFile, placed, file, aimed, bind, Except.bind]
  rw [if_neg (by simp [proper.1]), if_neg proper.2]
  split
  · next entries held => exact absurd (isFolder_iff.mpr ⟨entries, held⟩) free
  · exact ⟨_, rfl⟩
  · exact ⟨_, rfl⟩

end FileTree

/-! ## Saving or not -/

namespace Cache

open Work FileTree

variable {F : List (Option Fault)} {c : Cache} {w : Workspace} {t u : FileTree} {file : Bytes}
  {p : Place} {P : FileTree → Prop}

/-- The folder of a path is made again without a change. -/
theorem run_makeParent (tag : Bytes) {path : Bytes}
    (folder : Path.parent path ≠ [] → ∃ d, w.tree.place (Path.parent path) = .ok d ∧
      w.tree.IsFolder d) :
    ∃ u, (Owned.makeParent tag path).run.run w = (.ok (), u) ∧ u.tree = w.tree ∧
      u.files.faults = w.files.faults := by
  unfold Owned.makeParent
  dsimp only
  split
  · exact ⟨w, rfl, rfl, rfl⟩
  · next some =>
    obtain ⟨d, placed, folder⟩ := folder (by simpa using some)
    obtain ⟨entries, held⟩ := isFolder_iff.mp folder
    refine ⟨_, run_makeFolders (t := w.tree) ?_, rfl, rfl⟩
    simp only [FileTree.makeFolders, if_neg some, entry, placed, bind, Except.bind, held]

/-- A file that is written is no folder, and makes none. -/
theorem not_isFolder_of_writeFile {path text : Bytes} {q : Place}
    (written : t.writeFile path text = .ok u) (free : ¬ t.IsFolder q) : ¬ u.IsFolder q := by
  obtain ⟨p, _, notFolder, rfl⟩ := eq_put_of_writeFile written
  by_cases same : q = p
  · subst same
    rcases at?_put_self t (.file text) notFolder with new | ⟨none, _⟩
    · exact not_isFolder_of_file new
    · exact not_isFolder_of_none none
  · rwa [IsFolder, outer?_put (Entry.bare_file text) notFolder same]

/-- A record can be saved: it goes to a folder that is there, and no folder is in the way of it or
of the file beside it. -/
structure Savable (file : Bytes) (t : FileTree) : Prop where
  parent : Path.parent file ≠ [] → ∃ d, t.place (Path.parent file) = .ok d ∧ t.IsFolder d
  beside : ∃ p, t.place (file ++ bytes ".tmp") = .ok p ∧ ¬ t.IsFolder p
  record : ∃ q, t.place file = .ok q ∧ ¬ t.IsFolder q
  proper : EndsProper file

/-- Where no folder is in the way, the file beside the record is written and replaces it. -/
theorem Savable.exists_replaced (able : Savable file t) (text : Bytes) :
    ∃ u v, t.writeFile (file ++ bytes ".tmp") text = .ok u ∧
      u.replaceFile (file ++ bytes ".tmp") file = .ok v := by
  obtain ⟨p, placed, free⟩ := able.beside
  obtain ⟨q, aimed, notFolder⟩ := able.record
  have written := writeFile_of_place placed free text
  obtain ⟨_, _, only, _⟩ := writeFile_spec written
  obtain ⟨v, replaced⟩ := exists_replaceFile (textOf?_of_writeFile written)
    ((settled_of_place aimed _ only.keeps).trans aimed)
    (not_isFolder_of_writeFile written notFolder) able.proper
  exact ⟨_, v, written, replaced⟩

/-- Where nothing is in the way, a record is saved. -/
theorem returns_save (able : Savable c.file w.tree) (sound : w.files.Sound) : Returns c.save w := by
  obtain ⟨v, made, same, left⟩ := run_makeParent tag able.parent
  obtain ⟨t, u, written, replaced⟩ := able.exists_replaced (CacheRecord.text ⟨c.style, c.pending⟩)
  have sound : v.files.Sound := by
    intro f later
    rw [left] at later
    exact sound f later
  rw [← same] at written
  unfold save
  refine Returns.bind ⟨(), v, made⟩ (Gives.run _ w) fun _ v' ran => ?_
  cases made.symm.trans ran
  refine Returns.bind ⟨_, _, run_writeFile sound written⟩ (Gives.run _ v) fun _ x ran => ?_
  cases (run_writeFile sound written).symm.trans ran
  exact Returns.andThen ⟨_, _, run_commit sound.met replaced⟩ fun _ y => returns_write _ y

/-- What is done where saving fails spares every file but the one beside the record. -/
theorem triple_discarding_sparing (line : LogLine) :
    Triple F (Spares p) (fun t => p ≠ t.namedPlace c.temporary)
      (do Work.write line; c.discardTemporary; throw .writeFailed : Work Unit) fun _ _ => True := by
  refine (triple_write _).bind fun _ => Triple.bind (Q := fun _ _ => True) (triple_tree
    fun t apart => triple_commit ?_ fun _ => triple_pure fun _ _ => trivial) fun _ => triple_throw _
  rintro u removed _ rfl
  exact ⟨spares_removeFile removed apart, trivial⟩

/-- Where the new record cannot replace the old one, only the file beside it is removed. -/
theorem breaks_replaceRecord (apart : p ≠ w.tree.namedPlace c.temporary) :
    Breaks c.replaceRecord w (Spares p w.tree) := by
  refine breaks_tree (breaks_commit fun e u same _ _ => ?_)
  rw [← same] at apart ⊢
  exact (triple_discarding_sparing _).breaks apart

/-- Where saving fails, the record that is there is left. -/
theorem breaks_save (apart : w.tree.namedPlace c.file ≠ w.tree.namedPlace c.temporary) :
    Breaks c.save w (Spares (w.tree.namedPlace c.file) w.tree) := by
  have parent : Triple w.files.faults (Spares (w.tree.namedPlace c.file)) (fun t => t = w.tree)
      (Owned.makeParent tag c.file) _ := Owned.triple_makeParent (spares_makeFolders _)
  unfold save
  refine (parent.breaks rfl).bind fun _ v made => ?_
  have before := parent.spares (w := w) rfl
  rw [made] at before
  rw [← namedPlace_of_keeps before.keeps c.temporary] at apart
  have wrote : ∀ (comes : Bytes) (u : Workspace), v.tree.writeFile c.temporary comes = .ok u.tree →
      Spares (w.tree.namedPlace c.file) w.tree u.tree ∧
        w.tree.namedPlace c.file ≠ u.tree.namedPlace c.temporary := by
    intro comes u written
    have spared := spares_writeFile written apart
    exact ⟨before.trans spared, namedPlace_of_keeps spared.keeps c.temporary ▸ apart⟩
  refine Breaks.bind (breaks_writeFile (fun e u same => ?_) fun comes u written _ => ?_)
    (gives_writeFile (fun u _ written => ?_) (fun _ _ => gives_fail _ _ _) fun u => ?_)
  · exact breaks_fail _ _ _ (same ▸ before)
  · obtain ⟨spared, apart⟩ := wrote comes u written
    exact ((triple_discarding_sparing _).breaks apart).mono fun _ later => spared.trans later
  · obtain ⟨spared, apart⟩ := wrote _ u written
    refine Breaks.bind ?_ fun _ u _ => Returns.breaks (returns_write _ u)
    exact (breaks_replaceRecord apart).mono fun _ later => spared.trans later
  · exact gives_after_write fun x _ => (Gives.any _ x).bind fun _ x _ => Gives.throw _

/-- However far saving comes, folders stay and names are free of zero bytes. -/
theorem triple_save_root : Triple F (Spares []) P c.save fun _ _ => True := by
  have discarding : ∀ {P : FileTree → Prop} (line : LogLine), Triple F (Spares []) P
      (do Work.write line; c.discardTemporary; throw .writeFailed : Work Unit)
      fun _ _ => True := by
    intro P line
    refine (triple_write _).bind fun _ => Triple.bind (Q := fun _ _ => True) (triple_tree fun t _ =>
      triple_commit ?_ fun _ => triple_pure fun _ _ => trivial) fun _ => triple_throw _
    rintro u removed _ rfl
    obtain ⟨_, _, free, rfl⟩ := eq_erase_of_removeFile removed
    exact ⟨spares_root (onlyAt_erase free).keeps fun named => named.erase free, trivial⟩
  unfold save replaceRecord
  refine (Owned.triple_makeParent (spares_makeFolders [])).bind fun _ => ?_
  refine (triple_writeFile (S := fun _ => True) ?_ (fun _ => triple_fail _ _ _)
    (discarding _)).bind fun _ => ?_
  · rintro comes t u _ _ written
    obtain ⟨_, _, only, _⟩ := writeFile_spec written
    exact ⟨spares_root only.keeps fun named => named.writeFile written, trivial⟩
  · refine Triple.bind (Q := fun _ _ => True) (triple_tree fun t _ => triple_commit ?_ fun e => ?_)
      fun _ => triple_write _
    · rintro u replaced _ rfl
      obtain ⟨_, _, _, _, keeps, _⟩ := replaceFile_spec replaced
      exact ⟨spares_root keeps fun named => named.replaceFile replaced, trivial⟩
    · exact discarding _

end Cache

end HeaderForge
