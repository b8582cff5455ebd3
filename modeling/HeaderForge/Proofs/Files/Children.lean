import HeaderForge.Proofs.Files.Places
import Mathlib.Data.List.TakeWhile
/-!
# Names in folders

On no system does the name of a file hold a zero byte. Where that is so, a folder that was made is
where its path is looked up. The path of a file in it can only lead to the name of the file in that
folder, or to the folder itself, if a zero byte cuts the path before.

1. `FileTree.Named` says that all names in a tree are free of zero bytes, and the operations keep to
   that.
2. `FileTree.place_of_makeFolders`: a folder that was made is a folder.
3. `FileTree.namedPlace_child` is the place of a name in a folder, and by
   `FileTree.namedPlace_child_ne` the places of different names are different.
-/

namespace HeaderForge

/-! ## Ends of texts -/

section

variable {α : Type} {p : α → Bool}

theorem dropEndWhile_of_all {xs : List α} (all : ∀ x, x ∈ xs → p x = true) :
    dropEndWhile p xs = [] := by
  induction xs with
  | nil => rfl
  | cons x xs ih =>
    obtain ⟨here, later⟩ := List.forall_mem_cons.mp all
    simp [dropEndWhile, ih later, here]

/-- What is dropped ends at the last element that is kept. -/
theorem dropEndWhile_append_cons {x : α} (kept : p x = false) (xs : List α) {ys : List α}
    (all : ∀ y, y ∈ ys → p y = true) : dropEndWhile p (xs ++ x :: ys) = xs ++ [x] := by
  induction xs with
  | nil => simp [dropEndWhile, dropEndWhile_of_all all, kept]
  | cons y xs ih =>
    rw [List.cons_append, dropEndWhile, ih]
    cases xs <;> rfl

end

/-- The names on the way to a place are free of zero bytes. -/
def Place.ZeroFree (p : Place) : Prop := ∀ name, name ∈ p → 0 ∉ name

namespace Place.ZeroFree

variable {p : Place} {name : Bytes}

theorem nil : Place.ZeroFree [] := List.forall_mem_nil _

theorem append (h : p.ZeroFree) (free : 0 ∉ name) : Place.ZeroFree (p ++ [name]) :=
  List.forall_mem_append.mpr ⟨h, List.forall_mem_singleton.mpr free⟩

theorem dropLast (h : p.ZeroFree) : Place.ZeroFree p.dropLast :=
  fun name member => h name (List.dropLast_subset p member)

end Place.ZeroFree

namespace Path

theorem zero_not_mem_lookedUp (path : Bytes) : 0 ∉ lookedUp path := by
  intro zero
  simpa using List.mem_takeWhile_imp zero

theorem zeroFree_names {path : Bytes} (free : 0 ∉ path) : Place.ZeroFree (names path) :=
  fun _ member zero => free (Bytes.mem_of_mem_splitAll member zero)

/-- What is dropped after a zero byte is not looked up. -/
theorem lookedUp_dropEndWhile {p : UInt8 → Bool} (kept : p 0 = false) {path : Bytes}
    (zero : 0 ∈ path) : 0 ∈ dropEndWhile p path ∧
      lookedUp (dropEndWhile p path) = lookedUp path := by
  induction path with
  | nil => exact nomatch zero
  | cons b path ih =>
    rw [dropEndWhile]
    by_cases here : b = 0
    · subst here
      split
      · rw [kept]
        exact ⟨List.mem_cons_self, rfl⟩
      · exact ⟨List.mem_cons_self, rfl⟩
    · obtain ⟨still, same⟩ := ih ((List.mem_cons.mp zero).resolve_left (Ne.symm here))
      split
      · next none => exact nomatch none ▸ still
      · rw [lookedUp_cons here, lookedUp_cons here, same]
        exact ⟨List.mem_cons_of_mem b still, rfl⟩

/-- No name in a folder is looked up if a zero byte cuts the path of the folder. -/
theorem lookedUp_child {folder : Bytes} (zero : 0 ∈ folder) (name : Bytes) :
    lookedUp (child folder name) = lookedUp folder := by
  obtain ⟨front, equal, either⟩ := exists_child_eq (List.ne_nil_of_mem zero) name
  rw [equal]
  rcases either with rfl | rfl
  · exact lookedUp_append_of_mem zero _
  · have inFront : 0 ∈ front := by
      refine (List.mem_append.mp zero).resolve_right fun last => ?_
      exact absurd (List.mem_singleton.mp last) (by decide)
    rw [lookedUp_append_of_mem inFront, lookedUp_append_of_mem inFront]

/-- Nor is there more to look up in the path of a file than in that of its folder then. -/
theorem lookedUp_parent_child {folder name : Bytes} (zero : 0 ∈ folder) (plain : slash ∉ name) :
    parent (child folder name) ≠ [] ∧
      lookedUp (parent (child folder name)) = lookedUp (child folder name) := by
  obtain ⟨front, equal, either⟩ := exists_child_eq (List.ne_nil_of_mem zero) name
  have inFront : 0 ∈ front ++ [slash] := by
    rcases either with rfl | rfl
    · exact List.mem_append_left _ zero
    · exact zero
  have cut : dropEndWhile (· != slash) (child folder name) = front ++ [slash] := by
    rw [equal]
    refine dropEndWhile_append_cons (by decide) front fun b member => ?_
    simpa using fun same : b = slash => plain (same ▸ member)
  obtain ⟨still, same⟩ := lookedUp_dropEndWhile (p := (· == slash)) (by decide) inFront
  have kept : parent (child folder name) = dropEndWhile (· == slash) (front ++ [slash]) := by
    unfold parent
    rw [cut]
    exact if_neg (by simp [List.ne_nil_of_mem still])
  rw [kept, same, lookedUp_child zero]
  refine ⟨List.ne_nil_of_mem still, ?_⟩
  rcases either with rfl | rfl
  · exact lookedUp_append_of_mem zero _
  · rfl

theorem child_append (folder name more : Bytes) :
    child folder name ++ more = child folder (name ++ more) := by
  unfold child
  split
  · rfl
  · split <;> simp

/-- Whether a name is one that something in a folder can have. -/
structure IsName (name : Bytes) : Prop where
  whole : 0 ∉ name
  plain : slash ∉ name
  proper : name ≠ [] ∧ name ≠ bytes "." ∧ name ≠ bytes ".."

/-- Leaving out empty names and cutting at a zero byte go together, up to empty names. -/
theorem filter_lookedUpNames (ns : List Bytes) :
    (lookedUpNames (ns.filter fun name => !name.isEmpty)).filter (fun name => !name.isEmpty) =
      (lookedUpNames ns).filter fun name => !name.isEmpty := by
  induction ns with
  | nil => rfl
  | cons name ns ih =>
    cases name with
    | nil => simpa [lookedUpNames] using ih
    | cons b name =>
      rw [List.filter_cons_of_pos rfl, lookedUpNames, lookedUpNames]
      split
      · rfl
      · rw [List.filter_cons_of_pos rfl, List.filter_cons_of_pos rfl, ih]

end Path

namespace FileTree

variable {t u : FileTree} {p q : Place}

/-! ## Trees without zero bytes in names -/

/-- Whatever is in a tree has a name without zero bytes. -/
def Named (t : FileTree) : Prop := ∀ p, (t.at? p).isSome → p.ZeroFree

theorem isSome_outer? (t : FileTree) (p : Place) : (t.outer? p).isSome = (t.at? p).isSome :=
  Option.isSome_map

theorem Named.put (named : t.Named) {new : Entry} (bare : new.Bare) (free : ¬ t.IsFolder p)
    (zeroFree : p.ZeroFree) : (t.put p new).Named := by
  intro q there
  by_cases here : q = p
  · exact here ▸ zeroFree
  · refine named q ?_
    rwa [← isSome_outer?, ← outer?_put bare free here, isSome_outer?]

theorem Named.erase (named : t.Named) (free : ¬ t.IsFolder p) : (t.erase p).Named := by
  intro q there
  by_cases here : q = p
  · subst here
    rw [at?_erase_self t (ne_root_of_not_isFolder free)] at there
    exact nomatch there
  · refine named q ?_
    rwa [← isSome_outer?, ← outer?_erase free here, isSome_outer?]

theorem Named.zeroFree_of_isFolder (named : t.Named) (folder : t.IsFolder p) : p.ZeroFree := by
  obtain ⟨entries, held⟩ := isFolder_iff.mp folder
  exact named p (by rw [held]; rfl)

/-- A step by a name without zero bytes leads to a place without any. -/
theorem Named.zeroFree_of_step (named : t.Named) {name : Bytes} (free : 0 ∉ name)
    (h : t.step p name = .ok q) : q.ZeroFree := by
  have start := named.zeroFree_of_isFolder (isFolder_of_step h)
  obtain ⟨entries, held⟩ := isFolder_iff.mp (isFolder_of_step h)
  simp only [step, held] at h
  split at h
  · cases h
    exact start
  · split at h
    · cases h
      exact start.dropLast
    · split at h
      · cases h
      · cases h
        exact start.append free

theorem Named.zeroFree_of_walk (named : t.Named) {names : List Bytes} (some : names ≠ [])
    (free : Place.ZeroFree names) (h : t.walk p names = .ok q) : q.ZeroFree := by
  induction names generalizing p with
  | nil => exact absurd rfl some
  | cons name rest ih =>
    obtain ⟨here, later⟩ := List.forall_mem_cons.mp free
    obtain ⟨next, stepped, walked⟩ := step_of_walk_cons h
    cases rest with
    | nil =>
      cases walked
      exact named.zeroFree_of_step here stepped
    | cons other rest => exact ih (List.cons_ne_nil other rest) later walked

theorem Named.zeroFree_of_place (named : t.Named) {path : Bytes} (h : t.place path = .ok p) :
    p.ZeroFree :=
  named.zeroFree_of_walk (Bytes.splitAll_ne_nil _ _)
    (Path.zeroFree_names (Path.zero_not_mem_lookedUp path)) (walk_of_place h)

theorem Named.writeFile (named : t.Named) {path text : Bytes} (h : t.writeFile path text = .ok u) :
    u.Named := by
  obtain ⟨p, placed, free, rfl⟩ := eq_put_of_writeFile h
  exact named.put (Entry.bare_file text) free (named.zeroFree_of_place placed)

theorem Named.replaceFile (named : t.Named) {source target : Bytes}
    (h : t.replaceFile source target = .ok u) : u.Named := by
  obtain ⟨p, q, text, _, placed, aimed, noFolder, free, rfl⟩ := eq_put_of_replaceFile h
  exact (named.erase noFolder).put (Entry.bare_file text) free (named.zeroFree_of_place aimed)

theorem Named.makeAlong (named : t.Named) {names : List Bytes} (free : Place.ZeroFree names) :
    (t.makeAlong p names).2.Named := by
  induction names generalizing t p with
  | nil => exact named
  | cons name rest ih =>
    obtain ⟨here, later⟩ := List.forall_mem_cons.mp free
    unfold FileTree.makeAlong
    split
    · exact named
    · next q stepped =>
      split
      · exact ih named later
      · exact named
      · next missing =>
        exact ih (named.put Entry.bare_emptyFolder (not_isFolder_of_none missing)
          (named.zeroFree_of_step here stepped)) later

theorem Named.makeFolders (named : t.Named) (path : Bytes) : (t.makeFolders path).2.Named := by
  have zeroFree : ∀ ns, Place.ZeroFree (Path.lookedUpNames ns) := by
    intro ns
    induction ns with
    | nil => exact List.forall_mem_nil _
    | cons name ns ih =>
      rw [Path.lookedUpNames]
      split
      · exact List.forall_mem_singleton.mpr (Path.zero_not_mem_lookedUp name)
      · next free => exact List.forall_mem_cons.mpr ⟨free, ih⟩
  unfold FileTree.makeFolders
  split
  · exact named
  · split
    · exact named
    · exact named
    · split
      · unfold makeMissing
        dsimp only
        split
        · exact named
        · split
          · exact named
          · split
            · exact named
            · exact named.makeAlong (zeroFree _)
      · exact named

/-! ## Made folders -/

/-- Names that are followed to what is there have no zero bytes. -/
theorem Named.zeroFree_of_follow (named : t.Named) {names rest : List Bytes} {found : Place}
    (h : t.follow p names = (found, rest)) : ∃ front, names = front ++ rest ∧
      Place.ZeroFree front := by
  have ends : ∃ front, names = front ++ names ∧ Place.ZeroFree front := ⟨[], rfl, .nil⟩
  induction names generalizing p with
  | nil =>
    cases h
    exact ends
  | cons name names ih =>
    unfold follow at h
    split at h
    · next q stepped =>
      split at h
      · next there =>
        obtain ⟨front, rfl, free⟩ := ih h ⟨[], rfl, .nil⟩
        refine ⟨name :: front, rfl, List.forall_mem_cons.mpr ⟨fun zero => ?_, free⟩⟩
        -- A name that is not just passed over is the last one of the place that it leads to.
        obtain ⟨entries, held⟩ := isFolder_iff.mp (isFolder_of_step stepped)
        simp only [step, held] at stepped
        split at stepped
        · next stays =>
          have dot : name = [] ∨ name = bytes "." := by simpa using stays
          rcases dot with rfl | rfl
          · cases zero
          · exact absurd zero (by decide)
        · split at stepped
          · next up => exact absurd (up ▸ zero) (by decide)
          · split at stepped
            · cases stepped
            · cases stepped
              exact named _ there name (by simp) zero
      · cases h
        exact ends
    · cases h
      exact ends

theorem walk_filter {names : List Bytes} (h : t.walk p names = .ok q) :
    t.walk p (names.filter fun name => !name.isEmpty) = .ok q := by
  induction names generalizing p with
  | nil => exact h
  | cons name rest ih =>
    obtain ⟨next, stepped, walked⟩ := step_of_walk_cons h
    cases name with
    | nil =>
      obtain ⟨entries, held⟩ := isFolder_iff.mp (isFolder_of_step stepped)
      have stays : t.step p [] = .ok p := by simp [step, held]
      cases stays.symm.trans stepped
      exact ih walked
    | cons b name =>
      rw [List.filter_cons_of_pos rfl, walk_cons, stepped]
      exact ih walked

theorem length_lt_of_entry {path : Bytes} {e : FileError} (h : t.entry path = .error e)
    (absent : e.meansAbsent = true) (proper : Path.lookedUp path ≠ []) :
    (Path.lookedUp path).length < maxPath := by
  by_contra long
  have refused : t.place path = .error .nameTooLong := by
    unfold place
    dsimp only
    rw [if_neg (by simpa using proper), if_pos (Nat.le_of_not_lt long)]
  rw [entry, refused] at h
  cases h
  cases absent

/-- A folder that was made is there. -/
theorem place_of_makeMissing (named : t.Named) {path : Bytes}
    (short : Path.lookedUp path ≠ [] → (Path.lookedUp path).length < maxPath) (nonempty : path ≠ [])
    (h : t.makeMissing path = (none, u)) : ∃ d, u.place path = .ok d ∧ u.IsFolder d := by
  obtain ⟨found, front, rest, d, proper, followed, equal, walked, folder⟩ :=
    walk_of_makeMissing nonempty h
  obtain ⟨front', equal', free⟩ := named.zeroFree_of_follow followed
  obtain rfl : front' = front := List.append_cancel_right (equal'.symm.trans equal)
  -- The names that were followed and made are those that are looked up.
  rw [← Path.lookedUpNames_append free, ← equal] at walked
  have looked : u.walk (u.startOf path) (Path.lookedUpNames (Path.names path)) = .ok d := by
    refine walk_of_filter ?_ folder
    rw [← Path.filter_lookedUpNames]
    exact walk_filter walked
  refine ⟨d, ?_, folder⟩
  unfold place
  dsimp only
  rw [if_neg (by simpa using proper), if_neg (Nat.not_le_of_lt (short proper)),
    startOf_lookedUp proper, Path.names_lookedUp]
  exact looked

theorem place_of_makeFolders (named : t.Named) {path : Bytes}
    (h : t.makeFolders path = (none, u)) : ∃ d, u.place path = .ok d ∧ u.IsFolder d := by
  unfold FileTree.makeFolders at h
  split at h
  · exact nomatch h
  · next proper =>
    split at h
    · next entries found =>
      cases h
      obtain ⟨d, placed, held⟩ := place_of_entry found
      exact ⟨d, placed, isFolder_iff.mpr ⟨entries, held⟩⟩
    · exact nomatch h
    · next e missing =>
      split at h
      · next absent =>
        exact place_of_makeMissing named (length_lt_of_entry missing absent) (by simpa using proper) h
      · exact nomatch h

/-! ## Names in a folder -/

theorem lexical_append (p : Place) (front back : List Bytes) :
    lexical p (front ++ back) = lexical (lexical p front) back := List.foldl_append

/-- The path of a name in a folder names the place of the name in the place of the folder. -/
theorem namedPlace_child (t : FileTree) {folder name : Bytes} (wholeFolder : 0 ∉ folder)
    (isName : Path.IsName name) :
    t.namedPlace (Path.child folder name) = t.namedPlace folder ++ [name] := by
  obtain ⟨whole, plain, proper⟩ := isName
  have last : ∀ p, lexical p [name] = p ++ [name] := by
    intro p
    simp [lexical, proper]
  cases folder with
  | nil =>
    have start : t.startOf name = t.base := by
      cases name with
      | nil => rfl
      | cons b name =>
        have other : b ≠ Path.slash := fun same => plain (same ▸ List.mem_cons_self)
        simp [startOf, Path.isAbsolute, other]
    have child : Path.child [] name = name := rfl
    rw [child, namedPlace, Path.lookedUp_of_not_mem whole, Path.names_of_not_mem plain, start, last]
    rfl
  | cons b folder =>
    obtain ⟨front, child, either⟩ := Path.exists_child_eq (List.cons_ne_nil b folder) name
    have wholeFront : 0 ∉ front := by
      rcases either with same | same
      · exact same ▸ wholeFolder
      · exact fun zero => wholeFolder (same ▸ List.mem_append_left _ zero)
    have wholeChild : 0 ∉ front ++ Path.slash :: name := by
      rw [List.mem_append, List.mem_cons]
      rintro (zero | zero | zero)
      · exact wholeFront zero
      · exact absurd zero (by decide)
      · exact whole zero
    have start : t.startOf (front ++ Path.slash :: name) = t.startOf (b :: folder) := by
      rcases either with same | same
      · rw [← same]
        rfl
      · rw [same]
        cases front <;> rfl
    have above : lexical (t.startOf (b :: folder)) (Path.names (b :: folder)) =
        lexical (t.startOf (b :: folder)) (Path.names front) := by
      rcases either with same | same
      · rw [same]
      · rw [same, Path.names_append, lexical_append]
        rfl
    rw [child, namedPlace, namedPlace, Path.lookedUp_of_not_mem wholeChild,
      Path.lookedUp_of_not_mem wholeFolder, Path.names_append, Path.names_of_not_mem plain, start,
      lexical_append, last, above]

/-- Different names in folders are at different places. -/
theorem namedPlace_child_ne (t : FileTree) {folder folder' name name' : Bytes}
    (whole : 0 ∉ folder) (whole' : 0 ∉ folder') (isName : Path.IsName name)
    (isName' : Path.IsName name') (differ : name ≠ name') :
    t.namedPlace (Path.child folder name) ≠ t.namedPlace (Path.child folder' name') := by
  rw [namedPlace_child t whole isName, namedPlace_child t whole' isName']
  exact fun same => differ (List.singleton_inj.mp (List.append_inj_right' same rfl))

theorem place_eq_of_lookedUp {path other : Bytes} (same : Path.lookedUp path = Path.lookedUp other) :
    t.place path = t.place other := by
  unfold place
  rw [same]

/-- Where the path of a name leads to no folder, that of its folder is looked up whole. -/
theorem zero_not_mem_of_child {folder name : Bytes} {d : Place} (placed : t.place folder = .ok d)
    (isFolder : t.IsFolder d)
    (noFolder : ∀ p, t.place (Path.child folder name) = .ok p → ¬ t.IsFolder p) : 0 ∉ folder := by
  intro zero
  have same := place_eq_of_lookedUp (t := t) (Path.lookedUp_child zero name)
  exact noFolder d (same.trans placed) isFolder

end FileTree

end HeaderForge
