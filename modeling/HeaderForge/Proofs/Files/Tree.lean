import HeaderForge.Files.Tree
import HeaderForge.Proofs.Bytes.Entries
/-!
# What operations on files leave alone

A tree is looked at place by place: what is at a place is nothing, a folder, or a file with its
text. Putting a file or an empty folder where no folder is, and removing a file, changes what is at
that place and nowhere else.

1. `Entry.outer?_put` and `Entry.outer?_erase` are these frame laws, at every place.
2. `FileTree.textAt?` and `FileTree.IsFolder` ask for a file and for a folder.
3. `FileTree.Keeps` relates trees where folders stay.
4. `FileTree.writeFile_spec`, `FileTree.removeFile_spec`, `FileTree.replaceFile_spec` and
   `FileTree.grows_makeFolders` are what the operations do to each place.
-/

namespace HeaderForge

namespace Entry

/-! ## Places below an entry -/

/-- An entry seen from outside: a folder without what is in it. -/
def outer : Entry → Entry
  | file text => file text
  | folder _ => folder []

/-- What is at a place, seen from outside. -/
def outer? (e : Entry) (p : Place) : Option Entry := (e.at? p).map outer

/-- Whether nothing is below an entry. -/
def Bare (e : Entry) : Prop := ∀ name p, e.at? (name :: p) = none

theorem bare_file (text : Bytes) : (file text).Bare := fun _ _ => rfl

theorem bare_emptyFolder : (folder []).Bare := fun _ _ => rfl

@[simp] theorem at?_nil (e : Entry) : e.at? [] = some e := by
  cases e <;> rfl

theorem at?_folder (entries : List (Bytes × Entry)) (name : Bytes) (p : Place) :
    (folder entries).at? (name :: p) = (entries.lookup name).bind fun e => e.at? p := by
  rw [at?]
  cases entries.lookup name <;> rfl

theorem at?_append (e : Entry) (p q : Place) : e.at? (p ++ q) = (e.at? p).bind fun e => e.at? q := by
  induction p generalizing e with
  | nil => rw [List.nil_append, at?_nil, Option.bind_some]
  | cons name p ih =>
    cases e with
    | file text => rfl
    | folder entries =>
      rw [List.cons_append, at?_folder, at?_folder]
      cases entries.lookup name with
      | none => rfl
      | some inner => exact ih inner

/-- Putting an entry without anything below it, where there is none with anything below it, leaves
every other place as it was. -/
theorem outer?_put {e new : Entry} {p q : Place} (bare : new.Bare)
    (old : ∀ held, e.at? p = some held → held.Bare) (other : q ≠ p) :
    (e.put p new).outer? q = e.outer? q := by
  induction p generalizing e q with
  | nil =>
    cases q with
    | nil => exact absurd rfl other
    | cons name q =>
      have before : e.at? (name :: q) = none := old e (at?_nil e) name q
      have after : new.at? (name :: q) = none := bare name q
      simp only [put, outer?, before, after]
  | cons name p ih =>
    cases e with
    | file text => rfl
    | folder entries =>
      cases q with
      | nil =>
        rw [put]
        split
        · rfl
        · split <;> rfl
      | cons step q =>
        rw [put]
        split
        · next inner found =>
          simp only [outer?, at?_folder, lookup_putSorted]
          -- Where the two ways part nothing changes.
          by_cases here : step = name
          · subst here
            have further : q ≠ p := fun equal => other (by rw [equal])
            have below : ∀ held, inner.at? p = some held → held.Bare := by
              intro held at?
              exact old held (by rw [at?_folder, found]; exact at?)
            rw [if_pos rfl, found]
            exact ih below further
          · rw [if_neg here]
        · next missing =>
          split
          · next last =>
            simp only [outer?, at?_folder, lookup_putSorted]
            by_cases here : step = name
            · subst here
              have longer : q ≠ [] := by
                rintro rfl
                rw [List.isEmpty_iff.mp last] at other
                exact other rfl
              obtain ⟨next, q, rfl⟩ := List.exists_cons_of_ne_nil longer
              rw [if_pos rfl, missing]
              simp [bare next q]
            · rw [if_neg here]
          · rfl

/-- What is put into a folder is there afterwards. -/
theorem at?_put_child {e : Entry} {p : Place} {entries : List (Bytes × Entry)}
    (parent : e.at? p = some (folder entries)) (name : Bytes) (new : Entry) :
    (e.put (p ++ [name]) new).at? (p ++ [name]) = some new := by
  induction p generalizing e with
  | nil =>
    rw [at?_nil] at parent
    cases parent
    rw [List.nil_append, put]
    split
    · rw [at?_folder, lookup_putSorted, if_pos rfl]
      simp [put]
    · rw [if_pos List.isEmpty_nil, at?_folder, lookup_putSorted, if_pos rfl]
      simp
  | cons step p ih =>
    cases e with
    | file text => exact nomatch parent
    | folder others =>
      rw [at?_folder] at parent
      obtain ⟨inner, found, held⟩ := Option.bind_eq_some_iff.mp parent
      rw [List.cons_append, put, found, at?_folder, lookup_putSorted, if_pos rfl]
      exact ih held

/-- What is put is there afterwards, unless the way to it is missing. -/
theorem at?_put_self (e new : Entry) (p : Place) :
    (e.put p new).at? p = some new ∨ ((e.put p new).at? p = none ∧ e.at? p = none) := by
  induction p generalizing e with
  | nil =>
    left
    simp [put]
  | cons name p ih =>
    cases e with
    | file text => exact Or.inr ⟨rfl, rfl⟩
    | folder entries =>
      rw [put]
      split
      · next inner found =>
        rw [at?_folder, at?_folder, lookup_putSorted, if_pos rfl, found]
        exact ih inner
      · next missing =>
        split
        · next last =>
          left
          rw [List.isEmpty_iff.mp last, at?_folder, lookup_putSorted, if_pos rfl]
          simp
        · right
          simp only [at?_folder, missing]
          exact ⟨rfl, rfl⟩

theorem erase_last (entries : List (Bytes × Entry)) (name : Bytes) :
    (folder entries).erase [name] = folder (entries.filter fun entry => entry.1 ≠ name) := rfl

theorem erase_below (entries : List (Bytes × Entry)) (name next : Bytes) (p : Place) :
    (folder entries).erase (name :: next :: p) =
      match entries.lookup name with
      | some e => folder (putSorted name (e.erase (next :: p)) entries)
      | none => folder entries := rfl

/-- Removing an entry without anything below it leaves every other place as it was. -/
theorem outer?_erase {e : Entry} {p q : Place} (old : ∀ held, e.at? p = some held → held.Bare)
    (other : q ≠ p) : (e.erase p).outer? q = e.outer? q := by
  induction p generalizing e q with
  | nil => cases e <;> rfl
  | cons name p ih =>
    cases e with
    | file text => cases p <;> rfl
    | folder entries =>
      cases q with
      | nil =>
        cases p with
        | nil => rfl
        | cons next p =>
          rw [erase_below]
          split <;> rfl
      | cons step q =>
        cases p with
        | nil =>
          simp only [erase_last, outer?, at?_folder, lookup_filter]
          -- Where the two ways part nothing changes.
          by_cases here : step = name
          · subst here
            rw [if_pos rfl]
            cases found : entries.lookup step with
            | none => rfl
            | some held =>
              have bare : held.Bare := old held (by rw [at?_folder, found]; exact at?_nil held)
              have longer : q ≠ [] := fun equal => other (by rw [equal])
              obtain ⟨next, q, rfl⟩ := List.exists_cons_of_ne_nil longer
              simp [bare next q]
          · rw [if_neg here]
        | cons next p =>
          rw [erase_below]
          split
          · next inner found =>
            simp only [outer?, at?_folder, lookup_putSorted]
            by_cases here : step = name
            · subst here
              have further : q ≠ next :: p := fun equal => other (by rw [equal])
              have below : ∀ held, inner.at? (next :: p) = some held → held.Bare := by
                intro held at?
                exact old held (by rw [at?_folder, found]; exact at?)
              rw [if_pos rfl, found]
              exact ih below further
            · rw [if_neg here]
          · rfl

theorem at?_erase_self (e : Entry) {p : Place} (below : p ≠ []) : (e.erase p).at? p = none := by
  induction p generalizing e with
  | nil => exact absurd rfl below
  | cons name p ih =>
    cases e with
    | file text => cases p <;> rfl
    | folder entries =>
      cases p with
      | nil =>
        rw [erase_last, at?_folder, lookup_filter, if_pos rfl]
        rfl
      | cons next p =>
        rw [erase_below]
        split
        · next inner found =>
          rw [at?_folder, lookup_putSorted, if_pos rfl]
          exact ih inner (List.cons_ne_nil next p)
        · next missing =>
          rw [at?_folder, missing]
          rfl

/-- Nothing that is put or removed below a folder takes its place. -/
theorem exists_put_eq_folder (entries : List (Bytes × Entry)) (new : Entry) {p : Place}
    (below : p ≠ []) : ∃ others, (folder entries).put p new = folder others := by
  obtain ⟨name, p, rfl⟩ := List.exists_cons_of_ne_nil below
  rw [put]
  split
  · exact ⟨_, rfl⟩
  · split <;> exact ⟨_, rfl⟩

theorem exists_erase_eq_folder (entries : List (Bytes × Entry)) (p : Place) :
    ∃ others, (folder entries).erase p = folder others := by
  match p with
  | [] => exact ⟨_, rfl⟩
  | [name] => exact ⟨_, rfl⟩
  | name :: next :: p =>
    rw [erase_below]
    split <;> exact ⟨_, rfl⟩

end Entry

namespace FileTree

/-! ## Files and folders of a tree -/

/-- What is at a place of a tree, seen from outside. -/
def outer? (t : FileTree) (p : Place) : Option Entry := t.root.outer? p

/-- The text of the file at a place, if there is one. -/
def textAt? (t : FileTree) (p : Place) : Option Bytes :=
  match t.outer? p with
  | some (.file text) => some text
  | _ => none

def IsFolder (t : FileTree) (p : Place) : Prop := t.outer? p = some (.folder [])

theorem isFolder_root (t : FileTree) : t.IsFolder [] := rfl

theorem textAt?_of_file {t : FileTree} {p : Place} {text : Bytes} (h : t.at? p = some (.file text)) :
    t.textAt? p = some text := by
  have seen : t.root.at? p = some (.file text) := h
  simp only [textAt?, outer?, Entry.outer?, seen, Option.map_some, Entry.outer]

theorem textAt?_of_none {t : FileTree} {p : Place} (h : t.at? p = none) : t.textAt? p = none := by
  have seen : t.root.at? p = none := h
  simp only [textAt?, outer?, Entry.outer?, seen, Option.map_none]

theorem isFolder_iff {t : FileTree} {p : Place} :
    t.IsFolder p ↔ ∃ entries, t.at? p = some (.folder entries) := by
  constructor
  · intro h
    obtain ⟨e, held, seen⟩ := Option.map_eq_some_iff.mp h
    cases e with
    | file text => exact nomatch seen
    | folder entries => exact ⟨entries, held⟩
  · rintro ⟨entries, held⟩
    exact Option.map_eq_some_iff.mpr ⟨_, held, rfl⟩

theorem not_isFolder_of_file {t : FileTree} {p : Place} {text : Bytes}
    (h : t.at? p = some (.file text)) : ¬ t.IsFolder p := by
  rw [isFolder_iff]
  rintro ⟨entries, held⟩
  exact nomatch h.symm.trans held

theorem not_isFolder_of_none {t : FileTree} {p : Place} (h : t.at? p = none) : ¬ t.IsFolder p := by
  rw [isFolder_iff]
  rintro ⟨entries, held⟩
  exact nomatch h.symm.trans held

/-- Where no folder is, nothing is below. -/
theorem bare_of_not_isFolder {t : FileTree} {p : Place} (free : ¬ t.IsFolder p) (e : Entry)
    (held : t.at? p = some e) : e.Bare := by
  cases e with
  | file text => exact Entry.bare_file text
  | folder entries => exact absurd (isFolder_iff.mpr ⟨entries, held⟩) free

theorem ne_root_of_not_isFolder {t : FileTree} {p : Place} (free : ¬ t.IsFolder p) : p ≠ [] := by
  rintro rfl
  exact free (isFolder_root t)

/-! ## Trees that keep their folders -/

/-- Relative paths start where they did, and what was a folder is one. -/
structure Keeps (t u : FileTree) : Prop where
  base : u.base = t.base
  folder : ∀ p, t.IsFolder p → u.IsFolder p

theorem Keeps.refl (t : FileTree) : Keeps t t := ⟨rfl, fun _ h => h⟩

theorem Keeps.trans {t u v : FileTree} (first : Keeps t u) (second : Keeps u v) : Keeps t v :=
  ⟨second.base.trans first.base, fun p h => second.folder p (first.folder p h)⟩

/-- Folders stay, and so does every text but that at one place. -/
structure OnlyAt (p : Place) (t u : FileTree) : Prop where
  keeps : Keeps t u
  other : ∀ q, q ≠ p → u.textAt? q = t.textAt? q

/-- Folders stay, and so does every text. -/
structure Grows (t u : FileTree) : Prop where
  keeps : Keeps t u
  text : ∀ q, u.textAt? q = t.textAt? q

theorem Grows.refl (t : FileTree) : Grows t t := ⟨Keeps.refl t, fun _ => rfl⟩

theorem Grows.trans {t u v : FileTree} (first : Grows t u) (second : Grows u v) : Grows t v :=
  ⟨first.keeps.trans second.keeps, fun q => (second.text q).trans (first.text q)⟩

/-! ## Single changes -/

theorem root_put (t : FileTree) (e : Entry) {p : Place} (below : p ≠ []) :
    (t.put p e).root = t.root.put p e := by
  obtain ⟨others, equal⟩ := Entry.exists_put_eq_folder t.top e below
  unfold put root at *
  rw [equal]
  rfl

theorem root_erase (t : FileTree) (p : Place) : (t.erase p).root = t.root.erase p := by
  obtain ⟨others, equal⟩ := Entry.exists_erase_eq_folder t.top p
  unfold erase root at *
  rw [equal]
  rfl

theorem base_withRoot (t : FileTree) (e : Entry) : (t.withRoot e).base = t.base := by
  cases e <;> rfl

theorem outer?_put {t : FileTree} {p q : Place} {new : Entry} (bare : new.Bare)
    (free : ¬ t.IsFolder p) (other : q ≠ p) : (t.put p new).outer? q = t.outer? q := by
  rw [outer?, root_put t new (ne_root_of_not_isFolder free)]
  exact Entry.outer?_put bare (bare_of_not_isFolder free) other

/-- A new root that differs from the old one where no folder was changes one text at most. -/
theorem onlyAt_withRoot {t : FileTree} {root : Entry} {p : Place} (free : ¬ t.IsFolder p)
    (same : ∀ q, q ≠ p → (t.withRoot root).outer? q = t.outer? q) :
    OnlyAt p t (t.withRoot root) := by
  refine ⟨⟨base_withRoot t root, ?_⟩, ?_⟩
  · intro q h
    have other : q ≠ p := by
      rintro rfl
      exact free h
    rw [IsFolder, same q other]
    exact h
  · intro q other
    rw [textAt?, same q other, ← textAt?]

/-- Putting a file or an empty folder where no folder is changes one text at most. -/
theorem onlyAt_put {t : FileTree} {p : Place} {new : Entry} (bare : new.Bare)
    (free : ¬ t.IsFolder p) : OnlyAt p t (t.put p new) :=
  onlyAt_withRoot free fun _ other => outer?_put bare free other

theorem at?_put_self (t : FileTree) (new : Entry) {p : Place} (free : ¬ t.IsFolder p) :
    (t.put p new).at? p = some new ∨ ((t.put p new).at? p = none ∧ t.at? p = none) := by
  rw [at?, root_put t new (ne_root_of_not_isFolder free)]
  exact Entry.at?_put_self t.root new p

theorem outer?_erase {t : FileTree} {p q : Place} (free : ¬ t.IsFolder p) (other : q ≠ p) :
    (t.erase p).outer? q = t.outer? q := by
  rw [outer?, root_erase]
  exact Entry.outer?_erase (bare_of_not_isFolder free) other

theorem onlyAt_erase {t : FileTree} {p : Place} (free : ¬ t.IsFolder p) :
    OnlyAt p t (t.erase p) :=
  onlyAt_withRoot free fun _ other => outer?_erase free other

theorem at?_erase_self (t : FileTree) {p : Place} (below : p ≠ []) : (t.erase p).at? p = none := by
  rw [at?, root_erase]
  exact Entry.at?_erase_self t.root below

theorem isFolder_of_erase {t : FileTree} {p q : Place} (free : ¬ t.IsFolder p)
    (h : (t.erase p).IsFolder q) : t.IsFolder q := by
  have other : q ≠ p := by
    rintro rfl
    exact not_isFolder_of_none (at?_erase_self t (ne_root_of_not_isFolder free)) h
  rwa [IsFolder, outer?_erase free other] at h

/-! ## Operations on files -/

/-- A write puts a file where no folder is. -/
theorem eq_put_of_writeFile {t u : FileTree} {path text : Bytes}
    (h : t.writeFile path text = .ok u) :
    ∃ p, t.place path = .ok p ∧ ¬ t.IsFolder p ∧ u = t.put p (.file text) := by
  unfold writeFile at h
  cases placed : t.place path with
  | error e =>
    rw [placed] at h
    exact nomatch h
  | ok p =>
    rw [placed] at h
    simp only [bind, Except.bind] at h
    split at h
    · exact nomatch h
    · next _ held =>
      cases h
      exact ⟨p, rfl, not_isFolder_of_file held, rfl⟩
    · next held =>
      cases h
      exact ⟨p, rfl, not_isFolder_of_none held, rfl⟩

/-- What a write does: it changes the file that the path leads to, and no other. -/
theorem writeFile_spec {t u : FileTree} {path text : Bytes} (h : t.writeFile path text = .ok u) :
    ∃ p, t.place path = .ok p ∧ OnlyAt p t u ∧
      (u.textAt? p = some text ∨ u.textAt? p = t.textAt? p) := by
  obtain ⟨p, placed, free, rfl⟩ := eq_put_of_writeFile h
  refine ⟨p, placed, onlyAt_put (Entry.bare_file text) free, ?_⟩
  rcases at?_put_self t (.file text) free with put | ⟨missing, before⟩
  · exact Or.inl (textAt?_of_file put)
  · exact Or.inr ((textAt?_of_none missing).trans (textAt?_of_none before).symm)

/-- A removal takes a file away. -/
theorem eq_erase_of_removeFile {t u : FileTree} {path : Bytes} (h : t.removeFile path = .ok u) :
    ∃ p, t.place path = .ok p ∧ ¬ t.IsFolder p ∧ u = t.erase p := by
  unfold removeFile at h
  cases placed : t.place path with
  | error e =>
    rw [placed] at h
    exact nomatch h
  | ok p =>
    rw [placed] at h
    simp only [bind, Except.bind] at h
    split at h
    · next _ held =>
      cases h
      exact ⟨p, rfl, not_isFolder_of_file held, rfl⟩
    · exact nomatch h
    · exact nomatch h

/-- What a removal does: the file that the path leads to is gone, and no other. -/
theorem removeFile_spec {t u : FileTree} {path : Bytes} (h : t.removeFile path = .ok u) :
    ∃ p, t.place path = .ok p ∧ OnlyAt p t u ∧ u.textAt? p = none := by
  obtain ⟨p, placed, free, rfl⟩ := eq_erase_of_removeFile h
  exact ⟨p, placed, onlyAt_erase free,
    textAt?_of_none (at?_erase_self t (ne_root_of_not_isFolder free))⟩

theorem place_of_entry {t : FileTree} {path : Bytes} {e : Entry} (h : t.entry path = .ok e) :
    ∃ p, t.place path = .ok p ∧ t.at? p = some e := by
  unfold entry at h
  cases placed : t.place path with
  | error refusal =>
    rw [placed] at h
    exact nomatch h
  | ok p =>
    rw [placed] at h
    refine ⟨p, rfl, ?_⟩
    simp only [bind, Except.bind] at h
    split at h
    · next held =>
      cases h
      exact held
    · exact nomatch h

/-- What is read is the text of a file, or a folder is there. -/
theorem cases_of_read {t : FileTree} {path text : Bytes} (h : t.read path = .ok text) :
    ∃ p, t.place path = .ok p ∧
      (t.at? p = some (.file text) ∨ text = [] ∧ ∃ entries, t.at? p = some (.folder entries)) := by
  unfold read at h
  cases found : t.entry path with
  | error refusal =>
    rw [found] at h
    exact nomatch h
  | ok e =>
    rw [found] at h
    obtain ⟨p, placed, held⟩ := place_of_entry found
    refine ⟨p, placed, ?_⟩
    cases e with
    | file other =>
      cases h
      exact Or.inl held
    | folder entries =>
      cases h
      exact Or.inr ⟨rfl, entries, held⟩

/-- A move removes a file, and puts it where no folder is. -/
theorem eq_put_of_replaceFile {t u : FileTree} {source target : Bytes}
    (h : t.replaceFile source target = .ok u) :
    ∃ p q text, t.at? p = some (.file text) ∧ t.place source = .ok p ∧ t.place target = .ok q ∧
      ¬ t.IsFolder p ∧ ¬ (t.erase p).IsFolder q ∧ u = (t.erase p).put q (.file text) := by
  unfold replaceFile at h
  cases placed : t.place source with
  | error e =>
    rw [placed] at h
    exact nomatch h
  | ok p =>
    rw [placed] at h
    simp only [bind, Except.bind] at h
    split at h
    · exact nomatch h
    · exact nomatch h
    · next text file =>
      cases aimed : t.place target with
      | error e =>
        rw [aimed] at h
        exact nomatch h
      | ok q =>
        rw [aimed] at h
        have moved : u = (t.erase p).put q (.file text) ∧ ¬ t.IsFolder q := by
          dsimp only at h
          split at h
          · exact nomatch h
          · split at h
            · exact nomatch h
            · split at h
              · exact nomatch h
              · next _ held =>
                cases h
                exact ⟨rfl, not_isFolder_of_file held⟩
              · next held =>
                cases h
                exact ⟨rfl, not_isFolder_of_none held⟩
        obtain ⟨equal, free⟩ := moved
        have noFolder := not_isFolder_of_file file
        -- The removal of the one does not make a folder of the other.
        exact ⟨p, q, text, file, rfl, rfl, noFolder,
          fun folder => free (isFolder_of_erase noFolder folder), equal⟩

/-- What a move of a file over another one does: it changes what the two paths lead to. -/
theorem replaceFile_spec {t u : FileTree} {source target : Bytes}
    (h : t.replaceFile source target = .ok u) :
    ∃ p q, t.place source = .ok p ∧ t.place target = .ok q ∧ Keeps t u ∧
      ∀ r, r ≠ p → r ≠ q → u.textAt? r = t.textAt? r := by
  obtain ⟨p, q, text, _, placed, aimed, noFolder, free, rfl⟩ := eq_put_of_replaceFile h
  have erased := onlyAt_erase noFolder
  have put := onlyAt_put (Entry.bare_file text) free
  refine ⟨p, q, placed, aimed, erased.keeps.trans put.keeps, fun r notSource notTarget => ?_⟩
  rw [put.other r notTarget, erased.other r notSource]

/-! ## Making folders -/

theorem grows_put_folder {t : FileTree} {p : Place} (missing : t.at? p = none) :
    Grows t (t.put p (.folder [])) := by
  have free := not_isFolder_of_none missing
  have only := onlyAt_put Entry.bare_emptyFolder free
  refine ⟨only.keeps, fun q => ?_⟩
  by_cases here : q = p
  · subst here
    rw [textAt?_of_none missing]
    rcases at?_put_self t (.folder []) free with put | ⟨still, _⟩
    · have seen : (t.put q (.folder [])).root.at? q = some (.folder []) := put
      simp [textAt?, outer?, Entry.outer?, seen, Entry.outer]
    · exact textAt?_of_none still
  · exact only.other q here

theorem grows_makeAlong (t : FileTree) (p : Place) (names : List Bytes) :
    Grows t (t.makeAlong p names).2 := by
  induction names generalizing t p with
  | nil => exact Grows.refl t
  | cons name rest ih =>
    unfold makeAlong
    split
    · exact Grows.refl t
    · next q _ =>
      split
      · exact ih t q
      · exact Grows.refl t
      · next missing => exact (grows_put_folder missing).trans (ih _ q)

/-- Making folders, also when it is refused on the way, changes no text. -/
theorem grows_makeFolders (t : FileTree) (path : Bytes) : Grows t (t.makeFolders path).2 := by
  unfold makeFolders
  split
  · exact Grows.refl t
  · split
    · exact Grows.refl t
    · exact Grows.refl t
    · split
      · unfold makeMissing
        dsimp only
        split
        · exact Grows.refl t
        · split
          · exact Grows.refl t
          · split
            · exact Grows.refl t
            · exact grows_makeAlong t _ _
      · exact Grows.refl t

end FileTree

end HeaderForge
