import HeaderForge.Cache
import HeaderForge.Proofs.Cache.Record
import HeaderForge.Proofs.Files.Owned
/-!
# What the cache reads, keeps and writes

A cache goes on from what is on record, and each step of a run sets or takes out the entry of one
name. Saving puts the entries where the next run looks for them, and touches no other file.

1. `Cache.triple_load` is what loading gives: what is on record.
2. `Cache.triple_save` is what saving does to files, and `Cache.gives_save` what is read afterwards.
   By `Cache.onRecord_of_saved` it is on record then.
3. `Cache.ChangesOnly` says which names a step is about.
-/

namespace HeaderForge

open Work

namespace Cache

/-! ## Loading -/

/-- The hashes on the record in a tree that count for a cache. -/
def onRecord (c : Cache) (t : FileTree) : List (Bytes × Bytes) :=
  match t.read c.file with
  | .error _ => []
  | .ok text =>
    match CacheRecord.read text with
    | none => []
    | some r => if r.style = c.style then r.hashes else []

/-- Whether a cache goes on from these hashes, and is otherwise for the record of another one. -/
structure LoadedFrom (c : Cache) (hashes : List (Bytes × Bytes)) (loaded : Cache) : Prop where
  file : loaded.file = c.file
  style : loaded.style = c.style
  forced : loaded.forced = c.forced
  previous : loaded.previous = hashes
  pending : loaded.pending = hashes

variable {F : List (Option Fault)} {r : Rights} {R : FileTree → FileTree → Prop}
  {P : FileTree → Prop}

theorem triple_withRecord (c : Cache) (record : CacheRecord) :
    Triple F R P (c.withRecord record) fun loaded _ =>
      c.LoadedFrom (if record.style = c.style then record.hashes else []) loaded := by
  unfold withRecord
  split
  · exact (triple_write _).bind fun _ => triple_pure fun _ _ => ⟨rfl, rfl, rfl, rfl, rfl⟩
  · exact (triple_write _).bind fun _ => triple_pure fun _ _ => ⟨rfl, rfl, rfl, rfl, rfl⟩

/-- Loading changes nothing, and what it loads is what is on record. -/
theorem triple_load (c : Cache) (t : FileTree) :
    Triple F R (fun u => u = t) c.load fun loaded _ => c.LoadedFrom (c.onRecord t) loaded := by
  refine triple_tree ?_
  intro u start
  subst start
  unfold onRecord
  -- A damaged record and a missing one count as empty, and only what cannot be read fails.
  split
  · next text read =>
    rw [read]
    dsimp only
    split
    · next record parsed =>
      rw [parsed]
      exact triple_withRecord c record
    · next damaged =>
      rw [damaged]
      exact (triple_write _).bind fun _ => triple_pure fun _ _ => ⟨rfl, rfl, rfl, rfl, rfl⟩
  · next e read =>
    rw [read]
    split
    · exact (triple_write _).bind fun _ => triple_pure fun _ _ => ⟨rfl, rfl, rfl, rfl, rfl⟩
    · exact triple_fail _ _ _

/-- What is on record is in order and proper, in whichever order it was written. -/
theorem wellFormed_onRecord (c : Cache) (t : FileTree) :
    CacheRecord.WellFormed ⟨c.style, c.onRecord t⟩ := by
  have empty : CacheRecord.WellFormed ⟨c.style, []⟩ :=
    ⟨List.Pairwise.nil, List.forall_mem_nil _⟩
  unfold onRecord
  split
  · exact empty
  · split
    · exact empty
    · next record found =>
      split
      · next same => exact same ▸ CacheRecord.wellFormed_of_read found
      · exact empty

/-- A record that was saved is what is on record. -/
theorem onRecord_of_saved {c : Cache} {t : FileTree} {hashes : List (Bytes × Bytes)}
    (wf : CacheRecord.WellFormed ⟨c.style, hashes⟩)
    (saved : t.textOf? c.file = some (CacheRecord.text ⟨c.style, hashes⟩)) :
    c.onRecord t = hashes := by
  rw [onRecord, FileTree.read_of_textOf? saved]
  dsimp only
  rw [CacheRecord.read_text wf]
  exact if_pos rfl

/-! ## Saving -/

/-- Whether the record and the file beside it are no files of schemas. -/
def IsApart (c : Cache) (r : Rights) (t : FileTree) : Prop :=
  r.isApart (t.namedPlace c.file) ∧ r.isApart (t.namedPlace c.temporary)

theorem IsApart.of_keeps {c : Cache} {t u : FileTree} (apart : c.IsApart r t)
    (keeps : FileTree.Keeps t u) : c.IsApart r u := by
  rw [IsApart, FileTree.namedPlace_of_keeps keeps, FileTree.namedPlace_of_keeps keeps]
  exact apart

theorem triple_discardTemporary (c : Cache) :
    Triple F (Change r) (c.IsApart r) c.discardTemporary fun _ _ => True := by
  refine triple_tree fun t apart => triple_commit ?_ fun _ => triple_pure fun _ _ => trivial
  rintro u removed _ rfl
  obtain ⟨p, source, only, _⟩ := FileTree.removeFile_spec removed
  exact ⟨Change.of_apart only (FileTree.eq_namedPlace source ▸ apart.2), trivial⟩

theorem triple_replaceRecord (c : Cache) :
    Triple F (Change r) (c.IsApart r) c.replaceRecord fun _ _ => True := by
  refine triple_tree fun t apart => triple_commit ?_ fun e => ?_
  · rintro u replaced _ rfl
    obtain ⟨p, q, source, target, keeps, other⟩ := FileTree.replaceFile_spec replaced
    refine ⟨⟨keeps, fun place files => ?_⟩, trivial⟩
    have notSource : place ≠ p := by
      rintro rfl
      exact files (FileTree.eq_namedPlace source ▸ apart.2)
    have notTarget : place ≠ q := by
      rintro rfl
      exact files (FileTree.eq_namedPlace target ▸ apart.1)
    rw [other place notSource notTarget]
    exact .kept _
  · refine (triple_write _).bind fun _ => ?_
    refine Triple.mono ?_ (fun u (same : u = t) => same ▸ apart) fun _ _ h => h
    exact (triple_discardTemporary c).bind fun _ => triple_throw _

/-- Saving changes the record and the file beside it only. -/
theorem triple_save (c : Cache) : Triple F (Change r) (c.IsApart r) c.save fun _ _ => True := by
  unfold save
  refine Triple.bind (Q := fun _ => c.IsApart r) ?_ fun _ => ?_
  · refine (Owned.triple_makeParent Change.of_makeFolders).mono (fun _ h => h) ?_
    rintro _ u ⟨t, apart, grows⟩
    exact apart.of_keeps grows.keeps
  · refine (triple_writeFile (S := c.IsApart r) ?_ (fun _ => triple_fail _ _ _) ?_).bind fun _ => ?_
    · intro comes t u _ apart written
      obtain ⟨p, placed, only, _⟩ := FileTree.writeFile_spec written
      exact ⟨Change.of_apart only (FileTree.eq_namedPlace placed ▸ apart.2),
        apart.of_keeps only.keeps⟩
    · exact (triple_write _).bind fun _ =>
        (triple_discardTemporary c).bind fun _ => triple_throw _
    · exact (triple_replaceRecord c).bind fun _ =>
        (triple_write _).mono (fun _ _ => trivial) fun _ _ _ => trivial

theorem gives_replaceRecord (c : Cache) (w : Workspace) :
    Gives c.replaceRecord w fun _ u => w.tree.replaceFile c.temporary c.file = .ok u.tree := by
  refine gives_tree (gives_commit (fun _ replaced => replaced) fun e v => ?_)
  refine gives_after_write fun v _ => ?_
  exact (Gives.any _ v).bind fun _ v _ => Gives.throw _

/-- What was saved is on file, if saving succeeds. -/
theorem gives_save (c : Cache) (w : Workspace) :
    Gives c.save w fun _ u =>
      u.tree.textOf? c.file = some (CacheRecord.text ⟨c.style, c.pending⟩) := by
  unfold save
  refine (Gives.any _ w).bind fun _ v _ => ?_
  refine Gives.bind (Q := fun _ u => u.tree.textOf? c.temporary =
    some (CacheRecord.text ⟨c.style, c.pending⟩))
    (gives_writeFile (fun _ _ => FileTree.textOf?_of_writeFile) (fun _ _ => gives_fail _ _ _) ?_) ?_
  · exact fun u => gives_after_write fun x _ => (Gives.any _ x).bind fun _ x _ => Gives.throw _
  · intro _ u held
    refine (gives_replaceRecord c u).bind fun _ x replaced => Gives.modify ?_
    exact FileTree.textOf?_of_replaceFile held replaced

/-! ## Entries -/

/-- Whether a cache stands for the same record as another one, and answers from the same past. -/
structure SameRecord (c d : Cache) : Prop where
  file : d.file = c.file
  style : d.style = c.style
  previous : d.previous = c.previous

theorem SameRecord.trans {c d e : Cache} (first : SameRecord c d) (second : SameRecord d e) :
    SameRecord c e :=
  ⟨second.file.trans first.file, second.style.trans first.style,
    second.previous.trans first.previous⟩

/-- A step of a run is about the entries of these names, and keeps all entries in order. -/
structure ChangesOnly (names : List Bytes) (c d : Cache) : Prop where
  same : SameRecord c d
  order : KeysInOrder c.pending → KeysInOrder d.pending
  other : ∀ name, name ∉ names → d.pending.lookup name = c.pending.lookup name

namespace ChangesOnly

theorem refl (names : List Bytes) (c : Cache) : ChangesOnly names c c :=
  ⟨⟨rfl, rfl, rfl⟩, id, fun _ _ => rfl⟩

theorem append {names more : List Bytes} {c d e : Cache} (first : ChangesOnly names c d)
    (second : ChangesOnly more d e) : ChangesOnly (names ++ more) c e := by
  refine ⟨first.same.trans second.same, fun h => second.order (first.order h), fun name h => ?_⟩
  have notFirst : name ∉ names := fun member => h (List.mem_append_left more member)
  have notSecond : name ∉ more := fun member => h (List.mem_append_right names member)
  rw [second.other name notSecond, first.other name notFirst]

theorem commit (c : Cache) (name hash : Bytes) : ChangesOnly [name] c (c.commit name hash) := by
  refine ⟨⟨rfl, rfl, rfl⟩, fun h => h.put name hash, fun other h => ?_⟩
  exact (lookup_putSorted name hash c.pending other).trans (if_neg (List.ne_of_not_mem_cons h))

theorem drop (c : Cache) (name : Bytes) : ChangesOnly [name] c (c.drop name) := by
  refine ⟨⟨rfl, rfl, rfl⟩, fun h => h.filter _, fun other h => ?_⟩
  exact (lookup_filter name c.pending other).trans (if_neg (List.ne_of_not_mem_cons h))

end ChangesOnly

@[simp] theorem lookup_commit (c : Cache) (name hash : Bytes) :
    (c.commit name hash).pending.lookup name = some hash :=
  (lookup_putSorted name hash c.pending name).trans (if_pos rfl)

@[simp] theorem lookup_drop (c : Cache) (name : Bytes) : (c.drop name).pending.lookup name = none :=
  (lookup_filter name c.pending name).trans (if_pos rfl)

/-- A file that is not out of date has the hash that is on record for it. -/
theorem gives_isStale (c : Cache) (name hash : Bytes) (w : Workspace) :
    Gives (c.isStale name hash) w fun stale _ =>
      stale = false → c.previous.lookup name = some hash := by
  unfold isStale
  split
  · exact Gives.pure fun fresh => nomatch fresh
  · split
    · exact gives_after_write fun _ _ => Gives.pure fun fresh => nomatch fresh
    · next known recorded =>
      split
      · next same => exact gives_after_write fun _ _ => Gives.pure fun _ => same ▸ recorded
      · exact gives_after_write fun _ _ => Gives.pure fun fresh => nomatch fresh

end Cache

end HeaderForge
