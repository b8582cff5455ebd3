import HeaderForge.Files.Search
import HeaderForge.Proofs.Files.Path
import HeaderForge.Proofs.Files.Tree
/-!
# Places of paths

A path leads to a place through folders. So it leads to the same place in every later tree that
keeps the folders, if it led somewhere, or if the folder of its last name is there.

1. `FileTree.Settled` says that later trees agree on where a path leads.
2. `FileTree.namedPlace` is the only place that a path can lead to.
3. `FileTree.settled_of_textOf?`: a path that leads to a file is settled.
4. `FileTree.anchored_child`: once a folder was made, the paths of names in it are settled.
-/

namespace HeaderForge

namespace FileTree

variable {t u : FileTree} {p q : Place}

/-! ## Walks -/

theorem isFolder_of_step {name : Bytes} (h : t.step p name = .ok q) : t.IsFolder p := by
  unfold step at h
  split at h
  · exact nomatch h
  · exact nomatch h
  · next entries held => exact isFolder_iff.mpr ⟨entries, held⟩

/-- What a step from a folder leads to does not depend on what is in the folder. -/
theorem step_eq (ht : t.IsFolder p) (hu : u.IsFolder p) (name : Bytes) :
    u.step p name = t.step p name := by
  obtain ⟨_, held⟩ := isFolder_iff.mp ht
  obtain ⟨_, alsoHeld⟩ := isFolder_iff.mp hu
  rw [step, step, held, alsoHeld]

theorem step_of_keeps (keeps : Keeps t u) {name : Bytes} (h : t.step p name = .ok q) :
    u.step p name = .ok q := by
  have folder := isFolder_of_step h
  rw [step_eq folder (keeps.folder p folder), h]

theorem walk_cons (t : FileTree) (p : Place) (name : Bytes) (rest : List Bytes) :
    t.walk p (name :: rest) = (t.step p name).bind fun q => t.walk q rest := rfl

theorem walk_append (t : FileTree) (p : Place) (front rest : List Bytes) :
    t.walk p (front ++ rest) = (t.walk p front).bind fun q => t.walk q rest := by
  induction front generalizing p with
  | nil => rfl
  | cons name front ih =>
    rw [List.cons_append, walk_cons, walk_cons]
    cases t.step p name with
    | error e => rfl
    | ok q => exact ih q

theorem step_of_walk_cons {name : Bytes} {rest : List Bytes} (h : t.walk p (name :: rest) = .ok q) :
    ∃ next, t.step p name = .ok next ∧ t.walk next rest = .ok q := by
  rw [walk_cons] at h
  cases first : t.step p name with
  | error e =>
    rw [first] at h
    exact nomatch h
  | ok next =>
    rw [first] at h
    exact ⟨next, rfl, h⟩

theorem walk_of_walk_append {front rest : List Bytes} (h : t.walk p (front ++ rest) = .ok q) :
    ∃ next, t.walk p front = .ok next ∧ t.walk next rest = .ok q := by
  rw [walk_append] at h
  cases first : t.walk p front with
  | error e =>
    rw [first] at h
    exact nomatch h
  | ok next =>
    rw [first] at h
    exact ⟨next, rfl, h⟩

/-- A walk up to a name leads to a folder. -/
theorem folder_of_walk_append {front rest : List Bytes} {name : Bytes}
    (h : t.walk p (front ++ name :: rest) = .ok q) :
    ∃ d, t.walk p front = .ok d ∧ t.IsFolder d := by
  obtain ⟨d, walked, more⟩ := walk_of_walk_append h
  obtain ⟨_, stepped, _⟩ := step_of_walk_cons more
  exact ⟨d, walked, isFolder_of_step stepped⟩

theorem walk_of_keeps (keeps : Keeps t u) {names : List Bytes} (h : t.walk p names = .ok q) :
    u.walk p names = .ok q := by
  induction names generalizing p with
  | nil => exact h
  | cons name rest ih =>
    obtain ⟨next, stepped, walked⟩ := step_of_walk_cons h
    rw [walk_cons, step_of_keeps keeps stepped]
    exact ih walked

/-- Names where slashes meet lead nowhere else. -/
theorem walk_of_filter {names : List Bytes}
    (h : t.walk p (names.filter fun name => !name.isEmpty) = .ok q) (folder : t.IsFolder q) :
    t.walk p names = .ok q := by
  induction names generalizing p with
  | nil => exact h
  | cons name rest ih =>
    cases name with
    | nil =>
      -- An empty name stays where it is, which has to be a folder.
      have walked := ih h
      have start : t.IsFolder p := by
        cases rest with
        | nil =>
          cases h
          exact folder
        | cons next rest =>
          obtain ⟨_, stepped, _⟩ := step_of_walk_cons walked
          exact isFolder_of_step stepped
      obtain ⟨_, held⟩ := isFolder_iff.mp start
      have stays : t.step p [] = .ok p := by simp [step, held]
      rw [walk_cons, stays]
      exact walked
    | cons b name =>
      obtain ⟨next, stepped, walked⟩ := step_of_walk_cons h
      rw [walk_cons, stepped]
      exact ih walked

/-! ## Named places -/

/-- The place that a path names, which is the only one that it can lead to. -/
def namedPlace (t : FileTree) (path : Bytes) : Place :=
  lexical (t.startOf (Path.lookedUp path)) (Path.names (Path.lookedUp path))

theorem eq_lexical_of_step {name : Bytes} (h : t.step p name = .ok q) : q = lexical p [name] := by
  obtain ⟨_, held⟩ := isFolder_iff.mp (isFolder_of_step h)
  simp only [step, held] at h
  simp only [lexical, List.foldl_cons, List.foldl_nil]
  split at h
  · next stays =>
    cases h
    rw [if_pos (by simpa using stays)]
  · next leaves =>
    rw [if_neg (by simpa using leaves)]
    split at h
    · next up =>
      cases h
      rw [if_pos up]
    · next down =>
      split at h
      · exact nomatch h
      · cases h
        rw [if_neg down]

theorem eq_lexical_of_walk {names : List Bytes} (h : t.walk p names = .ok q) :
    q = lexical p names := by
  induction names generalizing p with
  | nil =>
    cases h
    rfl
  | cons name rest ih =>
    obtain ⟨next, stepped, walked⟩ := step_of_walk_cons h
    rw [ih walked, eq_lexical_of_step stepped]
    rfl

theorem walk_of_place {path : Bytes} (h : t.place path = .ok p) :
    t.walk (t.startOf (Path.lookedUp path)) (Path.names (Path.lookedUp path)) = .ok p := by
  unfold place at h
  dsimp only at h
  split at h
  · exact nomatch h
  · split at h
    · exact nomatch h
    · exact h

theorem eq_namedPlace {path : Bytes} (h : t.place path = .ok p) : p = t.namedPlace path :=
  eq_lexical_of_walk (walk_of_place h)

theorem startOf_of_keeps (keeps : Keeps t u) (path : Bytes) : u.startOf path = t.startOf path := by
  rw [startOf, startOf, keeps.base]

theorem namedPlace_of_keeps (keeps : Keeps t u) (path : Bytes) :
    u.namedPlace path = t.namedPlace path := by
  rw [namedPlace, namedPlace, startOf_of_keeps keeps]

/-! ## Settled paths -/

/-- Whether all trees that keep the folders agree on where a path leads. -/
def Settled (t : FileTree) (path : Bytes) : Prop := ∀ u, Keeps t u → u.place path = t.place path

theorem Settled.of_keeps {path : Bytes} (settled : Settled t path) (keeps : Keeps t u) :
    Settled u path := by
  intro v later
  rw [settled v (keeps.trans later), settled u keeps]

theorem settled_of_place {path : Bytes} (h : t.place path = .ok p) : Settled t path := by
  intro u keeps
  rw [h]
  unfold place at *
  dsimp only at *
  split at h
  · exact nomatch h
  · next proper =>
    split at h
    · exact nomatch h
    · next short =>
      rw [if_neg proper, if_neg short, startOf_of_keeps keeps]
      exact walk_of_keeps keeps h

/-- The folder of the last name of a path is there. -/
def Anchored (t : FileTree) (path : Bytes) : Prop :=
  ∃ front last d, Path.names (Path.lookedUp path) = front ++ [last] ∧
    t.walk (t.startOf (Path.lookedUp path)) front = .ok d ∧ t.IsFolder d

theorem Anchored.settled {path : Bytes} (h : Anchored t path) : Settled t path := by
  obtain ⟨front, last, d, names, walked, folder⟩ := h
  intro u keeps
  have whole : u.walk (t.startOf (Path.lookedUp path)) (front ++ [last]) =
      t.walk (t.startOf (Path.lookedUp path)) (front ++ [last]) := by
    rw [walk_append, walk_append, walked, walk_of_keeps keeps walked]
    simp only [Except.bind, walk_cons, step_eq folder (keeps.folder d folder)]
    rfl
  unfold place
  simp only [names, startOf_of_keeps keeps, whole]

/-! ## Reading what was written -/

theorem exists_at?_dropLast {e : Entry} (h : t.at? p = some e) :
    ∃ above, t.at? p.dropLast = some above := by
  by_cases root : p = []
  · subst root
    exact ⟨e, h⟩
  · have split := Entry.at?_append t.root p.dropLast [p.getLast root]
    rw [List.dropLast_concat_getLast root] at split
    obtain ⟨above, there, _⟩ := Option.bind_eq_some_iff.mp (split.symm.trans h)
    exact ⟨above, there⟩

theorem isFolder_dropLast (h : t.IsFolder p) : t.IsFolder p.dropLast := by
  obtain ⟨entries, held⟩ := isFolder_iff.mp h
  obtain ⟨above, there⟩ := exists_at?_dropLast held
  cases above with
  | folder others => exact isFolder_iff.mpr ⟨others, there⟩
  | file text =>
    -- Only the root has no name, and it is no file.
    by_cases root : p = []
    · subst root
      exact h
    · have split := Entry.at?_append t.root p.dropLast [p.getLast root]
      rw [List.dropLast_concat_getLast root] at split
      have below : t.root.at? p.dropLast = some (.file text) := there
      rw [below] at split
      exact nomatch (show t.at? p = none from split).symm.trans held

/-- What a path leads to is in a folder. -/
theorem isFolder_dropLast_of_step {name : Bytes} (h : t.step p name = .ok q) :
    t.IsFolder q.dropLast := by
  have folder := isFolder_of_step h
  obtain ⟨entries, held⟩ := isFolder_iff.mp folder
  simp only [step, held] at h
  split at h
  · cases h
    exact isFolder_dropLast folder
  · split at h
    · cases h
      exact isFolder_dropLast (isFolder_dropLast folder)
    · split at h
      · exact nomatch h
      · cases h
        rw [List.dropLast_concat]
        exact folder

theorem isFolder_dropLast_of_walk {names : List Bytes} (some : names ≠ [])
    (h : t.walk p names = .ok q) : t.IsFolder q.dropLast := by
  induction names generalizing p with
  | nil => exact absurd rfl some
  | cons name rest ih =>
    obtain ⟨next, stepped, walked⟩ := step_of_walk_cons h
    cases rest with
    | nil =>
      cases walked
      exact isFolder_dropLast_of_step stepped
    | cons other rest => exact ih (List.cons_ne_nil other rest) walked

theorem isFolder_dropLast_of_place {path : Bytes} (h : t.place path = .ok p) :
    t.IsFolder p.dropLast :=
  isFolder_dropLast_of_walk (Bytes.splitAll_ne_nil _ _) (walk_of_place h)

/-! ## Texts of paths -/

theorem at?_of_textAt? {text : Bytes} (h : t.textAt? p = some text) :
    t.at? p = some (.file text) := by
  unfold textAt? outer? Entry.outer? at h
  show t.root.at? p = _
  cases held : t.root.at? p with
  | none =>
    rw [held] at h
    exact nomatch h
  | some e =>
    rw [held] at h
    cases e with
    | folder entries => exact nomatch h
    | file other =>
      cases h
      rfl

theorem not_isFolder_of_textAt? {text : Bytes} (h : t.textAt? p = some text) : ¬ t.IsFolder p :=
  not_isFolder_of_file (at?_of_textAt? h)

/-- The text of the file that a path leads to, if it leads to one. -/
def textOf? (t : FileTree) (path : Bytes) : Option Bytes :=
  match t.place path with
  | .ok p => t.textAt? p
  | .error _ => none

variable {path text source target : Bytes}

theorem textOf?_of_place (h : t.place path = .ok p) : t.textOf? path = t.textAt? p := by
  rw [textOf?, h]

theorem textOf?_of_file (placed : t.place path = .ok p) (held : t.at? p = some (.file text)) :
    t.textOf? path = some text :=
  (textOf?_of_place placed).trans (textAt?_of_file held)

theorem file_of_textOf? (h : t.textOf? path = some text) :
    ∃ p, t.place path = .ok p ∧ t.at? p = some (.file text) := by
  unfold textOf? at h
  split at h
  · next p placed => exact ⟨p, placed, at?_of_textAt? h⟩
  · exact nomatch h

theorem textOf?_of_grows (settled : t.Settled path) (grows : Grows t u) :
    u.textOf? path = t.textOf? path := by
  rw [textOf?, textOf?, settled u grows.keeps]
  split
  · exact grows.text _
  · rfl

theorem textOf?_of_not_holds (h : t.holds path = false) : t.textOf? path = none := by
  unfold textOf?
  split
  · next p placed =>
    refine textAt?_of_none ?_
    simp only [holds, entry, placed, bind, Except.bind] at h
    split at h
    · cases h
    · next missing => exact missing
  · rfl

theorem read_of_textOf? (h : t.textOf? path = some text) : t.read path = .ok text := by
  obtain ⟨p, placed, held⟩ := file_of_textOf? h
  simp only [read, entry, placed, bind, Except.bind, held]

/-- A text that is not empty is not that of a folder. -/
theorem textOf?_of_read (h : t.read path = .ok text) (some : text ≠ []) :
    t.textOf? path = .some text := by
  obtain ⟨p, placed, held | ⟨empty, _⟩⟩ := cases_of_read h
  · exact textOf?_of_file placed held
  · exact absurd empty some

/-- The path of a file stays where it leads. -/
theorem settled_of_textOf? (h : t.textOf? path = some text) : t.Settled path := by
  obtain ⟨p, placed, _⟩ := file_of_textOf? h
  exact settled_of_place placed

/-- A file that is put where a path leads to can be read there. -/
theorem textOf?_put (placed : t.place path = .ok p) (keeps : Keeps t u) (free : ¬ u.IsFolder p)
    (text : Bytes) : (u.put p (.file text)).textOf? path = some text := by
  have put := onlyAt_put (Entry.bare_file text) free
  have stays := settled_of_place placed _ (keeps.trans put.keeps)
  have proper := ne_root_of_not_isFolder free
  obtain ⟨entries, parent⟩ := isFolder_iff.mp (keeps.folder _ (isFolder_dropLast_of_place placed))
  have held := Entry.at?_put_child parent (p.getLast proper) (.file text)
  rw [List.dropLast_concat_getLast proper, ← root_put u _ proper] at held
  exact textOf?_of_file (stays.trans placed) held

/-- What was written is read. -/
theorem textOf?_of_writeFile (h : t.writeFile path text = .ok u) : u.textOf? path = some text := by
  obtain ⟨p, placed, free, rfl⟩ := eq_put_of_writeFile h
  exact textOf?_put placed (Keeps.refl t) free text

/-- What was moved is read where it was moved to. -/
theorem textOf?_of_replaceFile (held : t.textOf? source = some text)
    (h : t.replaceFile source target = .ok u) : u.textOf? target = some text := by
  obtain ⟨p, q, moved, file, placed, aimed, noFolder, free, rfl⟩ := eq_put_of_replaceFile h
  cases (textOf?_of_file placed file).symm.trans held
  exact textOf?_put aimed (onlyAt_erase noFolder).keeps free text

/-! ## Made folders -/

theorem follow_spec {names rest : List Bytes} {found : Place}
    (h : t.follow p names = (found, rest)) :
    ∃ front, names = front ++ rest ∧ t.walk p front = .ok found ∧
      (front = [] ∨ (t.at? found).isSome) := by
  induction names generalizing p with
  | nil =>
    cases h
    exact ⟨[], rfl, rfl, Or.inl rfl⟩
  | cons name names ih =>
    unfold follow at h
    split at h
    · next next stepped =>
      split at h
      · next there =>
        obtain ⟨front, rfl, walked, held⟩ := ih h
        refine ⟨name :: front, rfl, by rw [walk_cons, stepped]; exact walked, Or.inr ?_⟩
        rcases held with rfl | held
        · cases walked
          exact there
        · exact held
      · cases h
        exact ⟨[], rfl, rfl, Or.inl rfl⟩
    · cases h
      exact ⟨[], rfl, rfl, Or.inl rfl⟩

/-- What is missing and is made becomes a folder. -/
theorem isFolder_put_of_step {name : Bytes} (stepped : t.step p name = .ok q)
    (missing : t.at? q = none) : (t.put q (.folder [])).IsFolder q := by
  obtain ⟨entries, held⟩ := isFolder_iff.mp (isFolder_of_step stepped)
  have child : q = p ++ [name] := by
    simp only [step, held] at stepped
    split at stepped
    · cases stepped
      exact nomatch held.symm.trans missing
    · split at stepped
      · cases stepped
        obtain ⟨above, there⟩ := exists_at?_dropLast held
        exact nomatch there.symm.trans missing
      · split at stepped
        · exact nomatch stepped
        · cases stepped
          rfl
  subst child
  refine isFolder_iff.mpr ⟨[], ?_⟩
  rw [at?, root_put t _ (by simp)]
  exact Entry.at?_put_child held name (.folder [])

/-- When folders are made without refusal, their names lead to a folder. -/
theorem walk_of_makeAlong {names : List Bytes} (h : t.makeAlong p names = (none, u)) :
    ∃ d, u.walk p names = .ok d ∧ (names ≠ [] → u.IsFolder d) := by
  induction names generalizing t p with
  | nil => exact ⟨p, rfl, fun more => absurd rfl more⟩
  | cons name rest ih =>
    have keeps : Keeps t u := by
      have grows := grows_makeAlong t p (name :: rest)
      rw [h] at grows
      exact grows.keeps
    unfold makeAlong at h
    split at h
    · cases h
    · next q stepped =>
      have along := step_of_keeps keeps stepped
      -- Whether the folder was there or is made now, the rest is made below it.
      have goal : ∀ v : FileTree, v.makeAlong q rest = (none, u) → v.IsFolder q →
          ∃ d, u.walk p (name :: rest) = .ok d ∧ (name :: rest ≠ [] → u.IsFolder d) := by
        intro v made folder
        obtain ⟨d, walked, last⟩ := ih made
        refine ⟨d, by rw [walk_cons, along]; exact walked, fun _ => ?_⟩
        cases rest with
        | nil =>
          cases walked
          cases made
          exact folder
        | cons next rest => exact last (List.cons_ne_nil next rest)
      split at h
      · next entries held => exact goal t h (isFolder_iff.mpr ⟨entries, held⟩)
      · cases h
      · next missing => exact goal _ h (isFolder_put_of_step stepped missing)

theorem startOf_lookedUp {path : Bytes} (h : Path.lookedUp path ≠ []) :
    t.startOf (Path.lookedUp path) = t.startOf path := by
  cases path with
  | nil => rfl
  | cons b path =>
    by_cases zero : b = 0
    · subst zero
      exact absurd rfl h
    · rw [Path.lookedUp_cons zero]
      rfl

/-- A folder that was made can be walked to: by the names of its path if that is looked up whole,
and else up to the name that is cut. -/
def Reached (u : FileTree) (path : Bytes) : Prop :=
  (0 ∉ path → ∃ d, u.walk (u.startOf path) (Path.names path) = .ok d ∧ u.IsFolder d) ∧
    (0 ∈ path → Anchored u path)

theorem reached_of_place {path : Bytes} {d : Place} (placed : u.place path = .ok d)
    (folder : u.IsFolder d) : Reached u path := by
  have walked := walk_of_place placed
  refine ⟨?_, ?_⟩
  · intro whole
    rw [Path.lookedUp_of_not_mem whole] at walked
    exact ⟨d, walked, folder⟩
  · intro _
    have named : Path.names (Path.lookedUp path) ≠ [] :=
      Bytes.splitAll_ne_nil Path.slash (Path.lookedUp path)
    rw [← List.dropLast_concat_getLast named] at walked
    obtain ⟨d, walked, folder⟩ := folder_of_walk_append walked
    exact ⟨_, _, d, (List.dropLast_concat_getLast named).symm, walked, folder⟩

/-- A path some names of which were there, and the others of which were made. -/
theorem reached_of_walk {path : Bytes} {front rest : List Bytes} {d : Place}
    (proper : Path.lookedUp path ≠ [])
    (split : (Path.names path).filter (fun name => !name.isEmpty) = front ++ rest)
    (walked : u.walk (u.startOf path) (front ++ Path.lookedUpNames rest) = .ok d)
    (folder : u.IsFolder d) : Reached u path := by
  refine ⟨?_, ?_⟩
  · intro whole
    refine ⟨d, ?_, folder⟩
    have zeroFree : ∀ name, name ∈ rest → 0 ∉ name := by
      intro name hname inName
      have proper : name ∈ (Path.names path).filter fun name => !name.isEmpty := by
        rw [split]
        exact List.mem_append_right front hname
      exact whole (Bytes.mem_of_mem_splitAll (List.mem_filter.mp proper).1 inName)
    have uncut : Path.lookedUpNames rest = rest := by
      have appended := Path.lookedUpNames_append zeroFree []
      rwa [List.append_nil, Path.lookedUpNames, List.append_nil] at appended
    rw [uncut, ← split] at walked
    exact walk_of_filter walked folder
  · intro zero
    obtain ⟨pre, cut, post, equal, zeroFree, inCut⟩ := Path.exists_names_eq_of_mem zero
    have kept : (cut :: post).filter (fun name => !name.isEmpty) =
        cut :: post.filter fun name => !name.isEmpty := by
      cases cut with
      | nil => cases inCut
      | cons b cut => rfl
    rw [equal, List.filter_append, kept] at split
    -- The cut name is walked through, whether it was there or was made.
    have through : ∃ name more,
        front ++ Path.lookedUpNames rest = pre.filter (fun name => !name.isEmpty) ++ name :: more := by
      rcases List.append_eq_append_iff.mp split with ⟨mid, hfront, hrest⟩ | ⟨mid, hpre, hrest⟩
      · cases mid with
        | nil =>
          refine ⟨Path.lookedUp cut, [], ?_⟩
          rw [List.nil_append] at hrest
          rw [hfront, List.append_nil, ← hrest, Path.lookedUpNames, if_pos inCut]
        | cons name mid =>
          refine ⟨name, mid ++ Path.lookedUpNames rest, ?_⟩
          rw [hfront, List.append_assoc, List.cons_append]
      · refine ⟨Path.lookedUp cut, [], ?_⟩
        have midFree : ∀ name, name ∈ mid → 0 ∉ name := by
          intro name hname
          have inPre : name ∈ pre.filter fun name => !name.isEmpty := by
            rw [hpre]
            exact List.mem_append_right front hname
          exact zeroFree name (List.mem_filter.mp inPre).1
        rw [hpre, hrest, Path.lookedUpNames_append midFree, Path.lookedUpNames, if_pos inCut,
          List.append_assoc]
    obtain ⟨name, more, equalThrough⟩ := through
    rw [equalThrough] at walked
    obtain ⟨d, walked, folder⟩ := folder_of_walk_append walked
    refine ⟨pre, Path.lookedUp cut, d, ?_, ?_, folder⟩
    · rw [Path.names_lookedUp, equal, Path.lookedUpNames_append zeroFree, Path.lookedUpNames,
        if_pos inCut]
    · rw [startOf_lookedUp proper]
      exact walk_of_filter walked folder

/-- Folders that were missing and are made without refusal are walked through, after those that were
followed. -/
theorem walk_of_makeMissing {path : Bytes} (proper : path ≠ [])
    (h : t.makeMissing path = (none, u)) :
    ∃ found front rest d, Path.lookedUp path ≠ [] ∧
      t.follow (t.startOf path) ((Path.names path).filter fun name => !name.isEmpty) =
        (found, rest) ∧
      (Path.names path).filter (fun name => !name.isEmpty) = front ++ rest ∧
      u.walk (u.startOf path) (front ++ Path.lookedUpNames rest) = .ok d ∧ u.IsFolder d := by
  unfold makeMissing at h
  dsimp only at h
  cases followed : t.follow (t.startOf path)
      ((Path.names path).filter fun name => !name.isEmpty) with
  | mk found rest =>
  rw [followed] at h
  obtain ⟨front, equal, walked, held⟩ := follow_spec followed
  split at h
  · exact nomatch h
  · split at h
    · exact nomatch h
    · next nonempty =>
      split at h
      · exact nomatch h
      · next noFile =>
        have keeps : Keeps t u := by
          have grows := grows_makeAlong t found (Path.lookedUpNames rest)
          rw [h] at grows
          exact grows.keeps
        obtain ⟨d, along, last⟩ := walk_of_makeAlong h
        refine ⟨found, front, rest, d, by simpa using nonempty, rfl, equal, ?_, ?_⟩
        · rw [walk_append, startOf_of_keeps keeps, walk_of_keeps keeps walked]
          exact along
        · cases rest with
          | cons name rest =>
            refine last ?_
            rw [Path.lookedUpNames]
            split <;> exact List.cons_ne_nil _ _
          | nil =>
            -- Nothing was missing, so the last folder is one that was followed.
            cases along
            cases h
            rcases held with rfl | there
            · cases walked
              rw [startOf, if_pos (Path.isAbsolute_of_no_names proper equal)]
              exact isFolder_root t
            · obtain ⟨e, there⟩ := Option.isSome_iff_exists.mp there
              cases e with
              | file text => exact absurd there (noFile text)
              | folder entries => exact isFolder_iff.mpr ⟨entries, there⟩

theorem reached_of_makeMissing {path : Bytes} (proper : path ≠ [])
    (h : t.makeMissing path = (none, u)) : Reached u path := by
  obtain ⟨_, front, rest, d, nonempty, _, equal, walked, folder⟩ := walk_of_makeMissing proper h
  exact reached_of_walk nonempty equal walked folder

theorem reached_of_makeFolders {path : Bytes} (h : t.makeFolders path = (none, u)) :
    path ≠ [] ∧ Reached u path := by
  unfold makeFolders at h
  split at h
  · exact nomatch h
  · next proper =>
    have proper : path ≠ [] := by simpa using proper
    refine ⟨proper, ?_⟩
    split at h
    · next entries found =>
      cases h
      obtain ⟨d, placed, held⟩ := place_of_entry found
      exact reached_of_place placed (isFolder_iff.mpr ⟨entries, held⟩)
    · exact nomatch h
    · split at h
      · exact reached_of_makeMissing proper h
      · exact nomatch h

/-- Once a folder was made, the folder of every path of a name in it is there. -/
theorem anchored_child {folder name : Bytes} (proper : folder ≠ []) (reached : Reached u folder)
    (noSlash : Path.slash ∉ name) (noZero : 0 ∉ name) : Anchored u (Path.child folder name) := by
  obtain ⟨front, child, either⟩ := Path.exists_child_eq proper name
  rw [child]
  by_cases zero : 0 ∈ folder
  -- A zero in the folder cuts the name off, so the two paths are looked up alike.
  · have inFront : 0 ∈ front := by
      rcases either with rfl | rfl
      · exact zero
      · cases List.mem_append.mp zero with
        | inl inFront => exact inFront
        | inr inSlash => exact absurd (List.mem_singleton.mp inSlash) (by decide)
    have same : Path.lookedUp (front ++ Path.slash :: name) = Path.lookedUp folder := by
      rw [Path.lookedUp_append_of_mem inFront]
      rcases either with rfl | rfl
      · rfl
      · rw [Path.lookedUp_append_of_mem inFront]
    unfold Anchored
    rw [same]
    exact reached.2 zero
  -- Without one both are looked up whole, and the name comes last.
  · obtain ⟨d, walked, isFolder⟩ := reached.1 zero
    have frontWhole : 0 ∉ front := by
      rcases either with rfl | rfl
      · exact zero
      · exact fun h => zero (List.mem_append_left _ h)
    have whole : 0 ∉ front ++ Path.slash :: name := by
      intro h
      rcases List.mem_append.mp h with inFront | inRest
      · exact frontWhole inFront
      · rcases List.mem_cons.mp inRest with inSlash | inName
        · exact absurd inSlash (by decide)
        · exact noZero inName
    have start : u.startOf (front ++ Path.slash :: name) = u.startOf folder := by
      rcases either with rfl | rfl
      · cases folder with
        | nil => exact absurd rfl proper
        | cons b rest => rfl
      · cases front <;> rfl
    have inner : ∃ d, u.walk (u.startOf folder) (Path.names front) = .ok d ∧ u.IsFolder d := by
      rcases either with rfl | rfl
      · exact ⟨d, walked, isFolder⟩
      · rw [Path.names_append] at walked
        exact folder_of_walk_append walked
    obtain ⟨d, walked, isFolder⟩ := inner
    refine ⟨Path.names front, name, d, ?_, ?_, isFolder⟩
    · rw [Path.lookedUp_of_not_mem whole, Path.names_append, Path.names_of_not_mem noSlash]
    · rw [Path.lookedUp_of_not_mem whole, start]
      exact walked

end FileTree

end HeaderForge
