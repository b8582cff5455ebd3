import HeaderForge.Proofs.Document.Cuts
import HeaderForge.Proofs.Run.Idempotence
/-!
# Names of files and where they lead

Whatever a schema is called, its name in snake case is runs of small letters and digits with one
underscore between each two, and nothing is lost of it but separators and the case of letters. A
name of a file that is made of it is one plain name, and cannot lead out of its folder.

1. `SnakeTail` is how a name in snake case goes on, inside a word or not.
   `snakeTail_snakeWords`: what is written is of that form once it is cut at its end.
2. `SnakeTail.snakeCase_eq`: such a name stays as it is.
3. `filter_snakeCase`: the letters and digits that are kept.
4. `Path.liesIn_child`: how the path of a name in a folder is read.
5. `Run.target_inside` is the result for the paths of headers.
-/

namespace HeaderForge

namespace Naming

/-! ## Runs -/

/-- What a word in snake case is made of. -/
def isRunByte (b : UInt8) : Bool := Byte.isLower b || Byte.isDigit b

/-- Runs of small letters and digits with one underscore between each two. -/
def IsSnake (text : Bytes) : Prop :=
  ∃ runs : List Bytes, (∀ run, run ∈ runs → run ≠ [] ∧ ∀ b, b ∈ run → isRunByte b = true) ∧
    text = Bytes.join [byte '_'] runs

/-- How a text in snake case goes on. An underscore comes only after a word and before one. -/
inductive SnakeTail : (inWord : Bool) → Bytes → Prop
  | done {inWord : Bool} : SnakeTail inWord []
  | run {inWord : Bool} {b : UInt8} {rest : Bytes} : isRunByte b = true → SnakeTail true rest →
      SnakeTail inWord (b :: rest)
  | next {rest : Bytes} : rest ≠ [] → SnakeTail false rest → SnakeTail true (byte '_' :: rest)

theorem isRunByte_underscore : isRunByte (byte '_') = false := by decide

theorem isRunByte_toLower {b : UInt8} (h : Byte.isAlnum b = true) :
    isRunByte (Byte.toLower b) = true := by
  unfold Byte.toLower
  split
  · next upper =>
    have small : Byte.isLower (b + 0x20) = true := by
      simp [Byte.isUpper, Byte.isLower, UInt8.le_iff_toNat_le, UInt8.toNat_add] at *
      omega
    simp [isRunByte, small]
  · next notUpper => simpa [isRunByte, Byte.isAlnum, Byte.isLetter, notUpper] using h

/-- What a word in snake case is made of is a letter or digit, and no capital. -/
theorem of_isRunByte {b : UInt8} (h : isRunByte b = true) :
    Byte.isAlnum b = true ∧ Byte.isUpper b = false := by
  refine ⟨?_, ?_⟩
  · rw [isRunByte] at h
    simp [Byte.isAlnum, Byte.isLetter, Bool.or_assoc, h]
  · simp [isRunByte, Byte.isUpper, Byte.isLower, Byte.isDigit, UInt8.le_iff_toNat_le] at *
    omega

/-- A word is not cut at its end. -/
theorem dropEndWhile_cons_of_isRunByte {b : UInt8} (h : isRunByte b = true) (rest : Bytes) :
    dropEndWhile (· == byte '_') (b :: rest) = b :: dropEndWhile (· == byte '_') rest := by
  refine @dropEndWhile_cons _ (· == byte '_') b (beq_eq_false_iff_ne.mpr ?_) rest
  rintro rfl
  exact nomatch isRunByte_underscore.symm.trans h

/-! ## What is written -/

theorem dropEndWhile_cons_of_ne_nil {α : Type} {p : α → Bool} {xs : List α} (x : α)
    (more : dropEndWhile p xs ≠ []) : dropEndWhile p (x :: xs) = x :: dropEndWhile p xs := by
  rw [dropEndWhile]
  split
  · next none => exact absurd none more
  · rfl

theorem snakeTail_snakeWords (inWord : Bool) (previous : UInt8) (name : Bytes) :
    SnakeTail inWord (dropEndWhile (· == byte '_') (snakeWords inWord previous name)) := by
  induction name generalizing inWord previous with
  | nil => exact .done
  | cons b rest ih =>
    rw [snakeWords]
    split
    · next alnum =>
      have small := isRunByte_toLower alnum
      have word : ∀ before, SnakeTail before
          (dropEndWhile (· == byte '_') (Byte.toLower b :: snakeWords true b rest)) := by
        intro before
        rw [dropEndWhile_cons_of_isRunByte small]
        exact .run small (ih true b)
      dsimp only
      split
      · next starts =>
        have more : dropEndWhile (· == byte '_')
            (Byte.toLower b :: snakeWords true b rest) ≠ [] := by
          rw [dropEndWhile_cons_of_isRunByte small]
          exact List.cons_ne_nil _ _
        obtain rfl : inWord = true := by
          rw [Bool.and_eq_true, Bool.and_eq_true] at starts
          exact starts.1.1
        rw [dropEndWhile_cons_of_ne_nil _ more]
        exact .next more (word false)
      · exact word inWord
    · split
      · next begun =>
        subst begun
        rw [dropEndWhile]
        split
        · exact .done
        · next more => exact .next more (ih false b)
      · next between =>
        rw [Bool.not_eq_true] at between
        exact between ▸ ih false b

theorem snakeTail_snakeCase (name : Bytes) : SnakeTail false (snakeCase name) :=
  snakeTail_snakeWords false 0 name

/-- The runs that are still to come. The first of them is empty only if an underscore is next, or
nothing. -/
theorem SnakeTail.exists_runs {inWord : Bool} {text : Bytes} (tail : SnakeTail inWord text) :
    ∃ run runs, (∀ b, b ∈ run → isRunByte b = true) ∧
      (∀ other, other ∈ runs → other ≠ [] ∧ ∀ b, b ∈ other → isRunByte b = true) ∧
      text = Bytes.join [byte '_'] (run :: runs) ∧ (inWord = false → text ≠ [] → run ≠ []) := by
  induction tail with
  | done => exact ⟨[], [], List.forall_mem_nil _, List.forall_mem_nil _, rfl, fun _ h => h⟩
  | @run _ b rest small _ ih =>
    obtain ⟨run, runs, here, later, rfl, -⟩ := ih
    refine ⟨b :: run, runs, List.forall_mem_cons.mpr ⟨small, here⟩, later, ?_,
      fun _ _ => List.cons_ne_nil _ _⟩
    cases runs <;> rfl
  | @next rest more _ ih =>
    obtain ⟨run, runs, here, later, rfl, proper⟩ := ih
    exact ⟨[], run :: runs, List.forall_mem_nil _,
      List.forall_mem_cons.mpr ⟨⟨proper rfl more, here⟩, later⟩, rfl, nofun⟩

theorem SnakeTail.isSnake {text : Bytes} (tail : SnakeTail false text) : IsSnake text := by
  by_cases empty : text = []
  · exact ⟨[], List.forall_mem_nil _, empty⟩
  · obtain ⟨run, runs, here, later, equal, proper⟩ := tail.exists_runs
    exact ⟨run :: runs, List.forall_mem_cons.mpr ⟨⟨proper rfl empty, here⟩, later⟩, equal⟩

/-! ## What stays as it is -/

theorem SnakeTail.snakeWords_eq {inWord : Bool} {text : Bytes} (tail : SnakeTail inWord text)
    (previous : UInt8) : snakeWords inWord previous text = text := by
  induction tail generalizing previous with
  | done => rfl
  | @run _ b rest small _ ih =>
    obtain ⟨alnum, notUpper⟩ := of_isRunByte small
    have lower : Byte.toLower b = b := by simp [Byte.toLower, notUpper]
    simp [snakeWords, alnum, notUpper, lower, ih]
  | next _ _ ih =>
    have gap : Byte.isAlnum (byte '_') = false := by decide
    simp [snakeWords, gap, ih]

theorem SnakeTail.dropEndWhile_eq {inWord : Bool} {text : Bytes} (tail : SnakeTail inWord text) :
    dropEndWhile (· == byte '_') text = text := by
  induction tail with
  | done => rfl
  | run small _ ih => rw [dropEndWhile_cons_of_isRunByte small, ih]
  | next more _ ih => rw [dropEndWhile_cons_of_ne_nil _ (ih.symm ▸ more), ih]

theorem SnakeTail.snakeCase_eq {text : Bytes} (tail : SnakeTail false text) :
    snakeCase text = text := by
  rw [snakeCase, tail.snakeWords_eq, tail.dropEndWhile_eq]

/-! ## What is kept -/

theorem filter_dropEndWhile {α : Type} {p q : α → Bool} (apart : ∀ x, p x = true → q x = false)
    (xs : List α) : (dropEndWhile p xs).filter q = xs.filter q := by
  obtain ⟨back, equal, dropped⟩ := exists_dropEndWhile p xs
  have none : back.filter q = [] :=
    List.filter_eq_nil_iff.mpr fun x member => by simp [apart x (dropped x member)]
  conv_rhs => rw [equal, List.filter_append, none, List.append_nil]

theorem filter_snakeWords (inWord : Bool) (previous : UInt8) (name : Bytes) :
    (snakeWords inWord previous name).filter Byte.isAlnum =
      (name.filter Byte.isAlnum).map Byte.toLower := by
  have gap : Byte.isAlnum (byte '_') = false := by decide
  induction name generalizing inWord previous with
  | nil => rfl
  | cons b rest ih =>
    rw [snakeWords]
    split
    · next alnum =>
      have small := (of_isRunByte (isRunByte_toLower alnum)).1
      dsimp only
      split <;> simp [gap, alnum, small, ih]
    · next other => split <;> simp [gap, other, ih]

/-- The letters and digits of a name are kept in order, letters as small ones. -/
theorem filter_snakeCase (name : Bytes) :
    (snakeCase name).filter Byte.isAlnum = (name.filter Byte.isAlnum).map Byte.toLower := by
  have gap : ∀ b, (b == byte '_') = true → Byte.isAlnum b = false := by
    intro b underscore
    rw [beq_iff_eq.mp underscore]
    decide
  rw [snakeCase, filter_dropEndWhile gap, filter_snakeWords]

/-- The stem of a header is the name of the schema in snake case. One without letters and digits has
a stem too. -/
theorem exists_stem (name : Bytes) :
    ∃ stem, (stem = snakeCase name ∨ snakeCase name = [] ∧ stem = bytes "model") ∧ stem ≠ [] ∧
      IsSnake stem ∧ headerFileName name = stem ++ bytes ".hpp" := by
  unfold headerFileName
  dsimp only
  split
  · next none =>
    have word : (bytes "model").all isRunByte = true := by decide
    refine ⟨bytes "model", .inr ⟨List.isEmpty_iff.mp none, rfl⟩, by decide,
      ⟨[bytes "model"], ?_, rfl⟩, rfl⟩
    exact List.forall_mem_singleton.mpr ⟨by decide, List.all_eq_true.mp word⟩
  · next proper =>
    exact ⟨snakeCase name, .inl rfl, mt List.isEmpty_iff.mpr proper,
      (snakeTail_snakeCase name).isSnake, rfl⟩

end Naming

/-! ## Paths of names in folders -/

namespace Path

/-- The names that a path goes through. -/
def properNames (path : Bytes) : List Bytes := (names path).filter fun name => !name.isEmpty

/-- The path is that of a name in a folder, and goes nowhere else: the name is one step down. -/
structure LiesIn (folder name path : Bytes) : Prop where
  isName : IsName name
  names : properNames path = properNames folder ++ [name]
  absolute : isAbsolute path = isAbsolute folder

theorem liesIn_child (folder : Bytes) {name : Bytes} (isName : IsName name) :
    LiesIn folder name (child folder name) := by
  have lone : (Path.names name).filter (fun part => !part.isEmpty) = [name] := by
    rw [names_of_not_mem isName.plain]
    simp [isName.proper.1]
  by_cases proper : folder = []
  · subst proper
    refine ⟨isName, lone, ?_⟩
    have other : name.head? ≠ some slash := fun same => isName.plain (List.mem_of_mem_head? same)
    simpa [isAbsolute, child] using other
  · obtain ⟨front, equal, either⟩ := exists_child_eq proper name
    rw [equal]
    refine ⟨isName, ?_, ?_⟩
    · rw [properNames, names_append, List.filter_append, lone]
      rcases either with rfl | rfl
      · rfl
      · rw [properNames, names_append, List.filter_append]
        simp [Path.names, Bytes.splitAll]
    · rcases either with rfl | rfl
      · simp [isAbsolute, List.head?_append_of_ne_nil _ proper]
      · simp [isAbsolute, List.head?_append]

end Path

/-- A name under a folder is one step below the place of the folder. A zero byte in the path of the
folder cuts off what comes after it, and then it is the place where the folder is cut. -/
theorem FileTree.namedPlace_child_cases (t : FileTree) (folder : Bytes) {name : Bytes}
    (isName : Path.IsName name) : t.namedPlace (Path.child folder name) =
      if 0 ∈ folder then t.namedPlace folder else t.namedPlace folder ++ [name] := by
  split
  · next zero => rw [namedPlace, namedPlace, Path.lookedUp_child zero]
  · next whole => exact t.namedPlace_child whole isName

/-- Whatever a schema is called, its name in snake case is runs of letters and digits, stays as it
is when it is converted again, and keeps all letters and digits. Its header is called by that name,
or by a fixed one where that is empty, with an ending, and lies directly in the output folder. -/
theorem Run.target_inside (c : Run.Context) (name : Bytes) :
    Naming.IsSnake (Naming.snakeCase name) ∧
      Naming.snakeCase (Naming.snakeCase name) = Naming.snakeCase name ∧
      (Naming.snakeCase name).filter Byte.isAlnum =
        (name.filter Byte.isAlnum).map Byte.toLower ∧
      (∃ stem, (stem = Naming.snakeCase name ∨
          Naming.snakeCase name = [] ∧ stem = bytes "model") ∧ stem ≠ [] ∧ Naming.IsSnake stem ∧
        Naming.headerFileName name = stem ++ bytes ".hpp") ∧
      Path.LiesIn c.config.outputDir (Naming.headerFileName name) (c.target name) ∧
      ∀ t : FileTree, t.namedPlace (c.target name) =
        if 0 ∈ c.config.outputDir then t.namedPlace c.config.outputDir
        else t.namedPlace c.config.outputDir ++ [Naming.headerFileName name] := by
  have spelled := Naming.snakeTail_snakeCase name
  have isName := Naming.isName_headerFileName name
  exact ⟨spelled.isSnake, spelled.snakeCase_eq, Naming.filter_snakeCase name,
    Naming.exists_stem name, Path.liesIn_child _ isName,
    fun t => t.namedPlace_child_cases _ isName⟩

end HeaderForge
