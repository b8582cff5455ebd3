import HeaderForge.Files.Path
/-!
# Names of paths

Cutting a path into names goes along with putting a name under a folder, and with cutting a path at
a zero byte.

1. `Path.names_lookedUp`: the names that are looked up are those of the part that is looked up.
2. `Path.exists_child_eq`: a child is its name after a slash, which the folder may bring along.
-/

namespace HeaderForge

namespace Bytes

theorem splitAll_ne_nil (stop : UInt8) (t : Bytes) : splitAll stop t ≠ [] := by
  cases t with
  | nil => exact List.cons_ne_nil _ _
  | cons b t =>
    rw [splitAll]
    split
    · exact List.cons_ne_nil _ _
    · split <;> exact List.cons_ne_nil _ _

theorem splitAll_of_not_mem {stop : UInt8} {t : Bytes} (h : stop ∉ t) : splitAll stop t = [t] := by
  induction t with
  | nil => rfl
  | cons b t ih =>
    obtain ⟨other, later⟩ := not_or.mp (mt List.mem_cons.mpr h)
    rw [splitAll, if_neg (by simpa using Ne.symm other), ih later]

theorem mem_of_mem_splitAll {stop b : UInt8} {t piece : Bytes} (h : piece ∈ splitAll stop t)
    (hb : b ∈ piece) : b ∈ t := by
  induction t generalizing piece with
  | nil =>
    cases List.mem_singleton.mp h
    exact nomatch hb
  | cons c t ih =>
    rw [splitAll] at h
    split at h
    · cases List.mem_cons.mp h with
      | inl here =>
        rw [here] at hb
        exact nomatch hb
      | inr later => exact List.mem_cons_of_mem c (ih later hb)
    · split at h
      · cases List.mem_singleton.mp h
        exact List.mem_cons.mpr (Or.inl (List.mem_singleton.mp hb))
      · next first others equal =>
        cases List.mem_cons.mp h with
        | inl here =>
          subst here
          cases List.mem_cons.mp hb with
          | inl same => exact List.mem_cons.mpr (Or.inl same)
          | inr inFirst =>
            exact List.mem_cons_of_mem c (ih (equal ▸ List.mem_cons_self) inFirst)
        | inr later => exact List.mem_cons_of_mem c (ih (equal ▸ List.mem_cons_of_mem first later) hb)

theorem not_mem_of_mem_splitAll {stop : UInt8} {t piece : Bytes} (h : piece ∈ splitAll stop t) :
    stop ∉ piece := by
  induction t generalizing piece with
  | nil =>
    cases List.mem_singleton.mp h
    exact List.not_mem_nil
  | cons c t ih =>
    rw [splitAll] at h
    split at h
    · rcases List.mem_cons.mp h with rfl | later
      · exact List.not_mem_nil
      · exact ih later
    · next other =>
      have plain : stop ≠ c := fun same => other (beq_iff_eq.mpr same.symm)
      split at h
      · cases List.mem_singleton.mp h
        exact List.not_mem_cons_of_ne_of_not_mem plain List.not_mem_nil
      · next first others equal =>
        rw [equal] at ih
        rcases List.mem_cons.mp h with rfl | later
        · exact List.not_mem_cons_of_ne_of_not_mem plain (ih List.mem_cons_self)
        · exact ih (List.mem_cons_of_mem _ later)

theorem splitAll_append (stop : UInt8) (t u : Bytes) :
    splitAll stop (t ++ stop :: u) = splitAll stop t ++ splitAll stop u := by
  induction t with
  | nil => simp [splitAll]
  | cons b t ih =>
    rw [List.cons_append, splitAll, splitAll, ih]
    split
    · rfl
    · cases equal : splitAll stop t with
      | nil => exact absurd equal (splitAll_ne_nil stop t)
      | cons first others => rfl

end Bytes

namespace Path

theorem names_of_not_mem {name : Bytes} (plain : slash ∉ name) : names name = [name] :=
  Bytes.splitAll_of_not_mem plain

theorem names_append (front back : Bytes) : names (front ++ slash :: back) = names front ++ names back :=
  Bytes.splitAll_append slash front back

/-- A path without proper names is all slashes. -/
theorem isAbsolute_of_no_names {path : Bytes} (proper : path ≠ [])
    (h : (names path).filter (fun name => !name.isEmpty) = []) : isAbsolute path = true := by
  cases path with
  | nil => exact absurd rfl proper
  | cons b path =>
    unfold names at h
    rw [Bytes.splitAll] at h
    split at h
    · next atSlash => rw [isAbsolute, beq_iff_eq.mp atSlash]; rfl
    · split at h <;> simp at h

/-- A child of a folder is its name after a slash. -/
theorem exists_child_eq {folder : Bytes} (proper : folder ≠ []) (name : Bytes) :
    ∃ front, child folder name = front ++ slash :: name ∧
      (folder = front ∨ folder = front ++ [slash]) := by
  unfold child
  split
  · next missing => exact absurd (List.getLast?_eq_none_iff.mp missing) proper
  · next b last =>
    split
    · next ends =>
      obtain ⟨front, rfl⟩ := List.getLast?_eq_some_iff.mp last
      refine ⟨front, ?_, Or.inr ?_⟩
      · simp [beq_iff_eq.mp ends]
      · rw [beq_iff_eq.mp ends]
    · exact ⟨folder, rfl, Or.inl rfl⟩

/-! ## Zero bytes -/

theorem lookedUp_cons {b : UInt8} (h : b ≠ 0) (path : Bytes) :
    lookedUp (b :: path) = b :: lookedUp path :=
  List.takeWhile_cons_of_pos (by simpa using h)

theorem lookedUp_of_not_mem {path : Bytes} (h : 0 ∉ path) : lookedUp path = path := by
  induction path with
  | nil => rfl
  | cons b path ih =>
    obtain ⟨other, later⟩ := not_or.mp (mt List.mem_cons.mpr h)
    rw [lookedUp_cons (Ne.symm other), ih later]

theorem lookedUp_append_of_mem {front : Bytes} (h : 0 ∈ front) (back : Bytes) :
    lookedUp (front ++ back) = lookedUp front := by
  induction front with
  | nil => exact nomatch h
  | cons b front ih =>
    by_cases zero : b = 0
    · simp [lookedUp, zero]
    · have later : 0 ∈ front := (List.mem_cons.mp h).resolve_left (Ne.symm zero)
      rw [List.cons_append, lookedUp_cons zero, lookedUp_cons zero, ih later]

theorem lookedUpNames_append {front : List Bytes} (h : ∀ name, name ∈ front → 0 ∉ name)
    (rest : List Bytes) : lookedUpNames (front ++ rest) = front ++ lookedUpNames rest := by
  induction front with
  | nil => rfl
  | cons name front ih =>
    rw [List.cons_append, lookedUpNames, if_neg (h name List.mem_cons_self),
      ih fun name later => h name (List.mem_cons_of_mem _ later)]
    rfl

/-- The names that are looked up are those of the part of a path that is looked up. -/
theorem names_lookedUp (path : Bytes) : names (lookedUp path) = lookedUpNames (names path) := by
  induction path with
  | nil => rfl
  | cons b path ih =>
    -- A zero ends what is looked up, a slash starts a name, and any other byte belongs to the first
    -- of the names that follow.
    by_cases zero : b = 0
    · subst zero
      have cut : lookedUp (0 :: path) = [] := rfl
      have proper : ((0 : UInt8) == slash) = false := by decide
      simp only [cut, names, Bytes.splitAll, proper, Bool.false_eq_true, if_false]
      split <;> simp [lookedUpNames, lookedUp]
    · rw [lookedUp_cons zero]
      unfold names at *
      rw [Bytes.splitAll, Bytes.splitAll]
      split
      · rw [ih, lookedUpNames, if_neg List.not_mem_nil]
      · rw [ih]
        cases equal : Bytes.splitAll slash path with
        | nil => exact absurd equal (Bytes.splitAll_ne_nil slash path)
        | cons first others =>
          by_cases inFirst : 0 ∈ first
          · have also : 0 ∈ b :: first := List.mem_cons_of_mem b inFirst
            simp only [lookedUpNames, if_pos inFirst, if_pos also, lookedUp_cons zero]
          · have neither : 0 ∉ b :: first := by simp [inFirst, Ne.symm zero]
            simp only [lookedUpNames, if_neg inFirst, if_neg neither]

/-- Unless a path is looked up whole, one of its names is cut. -/
theorem exists_names_eq_of_mem {path : Bytes} (h : 0 ∈ path) :
    ∃ front cut rest, names path = front ++ cut :: rest ∧ (∀ name, name ∈ front → 0 ∉ name) ∧
      0 ∈ cut := by
  induction path with
  | nil => exact nomatch h
  | cons b path ih =>
    unfold names at *
    rw [Bytes.splitAll]
    split
    · next atSlash =>
      have later : 0 ∈ path := by
        refine (List.mem_cons.mp h).resolve_left ?_
        rw [beq_iff_eq.mp atSlash]
        decide
      obtain ⟨front, cut, rest, equal, zeroFree, zero⟩ := ih later
      refine ⟨[] :: front, cut, rest, by rw [equal]; rfl, ?_, zero⟩
      intro name hname
      cases List.mem_cons.mp hname with
      | inl here =>
        rw [here]
        exact List.not_mem_nil
      | inr later => exact zeroFree name later
    · cases equal : Bytes.splitAll slash path with
      | nil => exact absurd equal (Bytes.splitAll_ne_nil slash path)
      | cons first others =>
        -- The first name with a zero is this one, or it is among the later ones.
        by_cases inFirst : 0 ∈ b :: first
        · exact ⟨[], b :: first, others, rfl, List.forall_mem_nil _, inFirst⟩
        · obtain ⟨other, notFirst⟩ := not_or.mp (mt List.mem_cons.mpr inFirst)
          have later : 0 ∈ path := (List.mem_cons.mp h).resolve_left other
          obtain ⟨front, cut, rest, split, zeroFree, zero⟩ := ih later
          rw [equal] at split
          cases front with
          | nil =>
            obtain ⟨rfl, _⟩ := List.cons.inj split
            exact absurd zero notFirst
          | cons name front =>
            obtain ⟨rfl, rfl⟩ := List.cons.inj split
            refine ⟨(b :: first) :: front, cut, rest, rfl, ?_, zero⟩
            intro name hname
            cases List.mem_cons.mp hname with
            | inl here => rwa [here]
            | inr later => exact zeroFree name (List.mem_cons_of_mem _ later)

end Path

end HeaderForge
