import HeaderForge.Header.Basic
import HeaderForge.Proofs.Document.Cuts
import HeaderForge.Proofs.Files.Path
import HeaderForge.Proofs.Naming
/-!
# Comments stay comments

A compiler joins lines before it looks for comments: a line that ends with a backslash goes on in
the next one. So a comment stays apart from the code around it exactly if none of its lines ends
like that, whatever else its text holds.

1. `logicalLines` are the lines that code is read by.
2. `logicalLines_between_iff`: lines stand apart wherever they are put, if no backslash ends one.
3. `Header.docComment_apart_iff` is the result for the documentation of a text.
   `Header.not_docComment_apart` is a text whose documentation takes the next line of code along.
-/

namespace HeaderForge

/-! ## Logical lines -/

/-- A line that goes on in the next one. -/
def Continued (line : Bytes) : Prop := line.getLast? = some (byte '\\')

instance : DecidablePred Continued := fun line =>
  inferInstanceAs (Decidable (line.getLast? = some (byte '\\')))

/-- A text with its continued lines joined: the backslash goes, and the line feed after it. -/
def joined : Bytes → Bytes
  | [] => []
  | [b] => [b]
  | b :: c :: rest =>
    if b = byte '\\' ∧ c = byte '\n' then joined rest else b :: joined (c :: rest)

/-- The lines that code is read by. -/
def logicalLines (code : Bytes) : List Bytes := lines (joined code)

/-- Code up to where a logical line ends. -/
structure Whole (code : Bytes) : Prop where
  ended : Ended code
  joined : Ended (joined code)

theorem joined_cons {t : Bytes} (h : t.head? ≠ some (byte '\n')) (b : UInt8) :
    joined (b :: t) = b :: joined t := by
  cases t with
  | nil => rfl
  | cons c t =>
    rw [joined, if_neg]
    rintro ⟨-, rfl⟩
    exact h rfl

theorem joined_append {t : Bytes} (h : ¬ Continued t) (u : Bytes) :
    joined (t ++ u) = joined t ++ joined u := by
  induction t using joined.induct with
  | case1 => rfl
  | case2 b =>
    cases u with
    | nil => rfl
    | cons c u =>
      have other : ¬ (b = byte '\\' ∧ c = byte '\n') := fun both => h (both.1 ▸ rfl)
      show joined (b :: c :: u) = b :: joined (c :: u)
      rw [joined, if_neg other]
  | case3 b c rest pair ih =>
    rw [List.cons_append, List.cons_append, joined, if_pos pair, joined, if_pos pair]
    refine ih fun continued => h ?_
    unfold Continued
    rw [List.getLast?_cons, List.getLast?_cons, continued]
    rfl
  | case4 b c rest other ih =>
    have later : ¬ Continued (c :: rest) := fun continued => h continued
    rw [List.cons_append, List.cons_append, joined, if_neg other, joined, if_neg other,
      ← List.cons_append, ih later, List.cons_append]

theorem length_joined_le (t : Bytes) : (joined t).length ≤ t.length := by
  induction t using joined.induct with
  | case1 => exact Nat.le_refl _
  | case2 b => exact Nat.le_refl _
  | case3 b c rest pair ih =>
    rw [joined, if_pos pair]
    exact Nat.le_succ_of_le (Nat.le_succ_of_le ih)
  | case4 b c rest other ih =>
    rw [joined, if_neg other]
    exact Nat.succ_le_succ ih

/-- A single line is joined to what follows it, if it is continued. -/
theorem joined_line {line : Bytes} (whole : byte '\n' ∉ line) :
    joined (line ++ [byte '\n']) =
      if Continued line then line.dropLast else line ++ [byte '\n'] := by
  induction line with
  | nil => rfl
  | cons b line ih =>
    obtain ⟨-, later⟩ := not_or.mp (mt List.mem_cons.mpr whole)
    cases line with
    | nil =>
      by_cases slash : b = byte '\\'
      · rw [slash]
        rfl
      · have single : ¬ Continued [b] := by simpa [Continued] using slash
        rw [if_neg single, List.singleton_append, joined, if_neg fun both => slash both.1]
        rfl
    | cons c line =>
      have head : (c :: line ++ [byte '\n']).head? ≠ some (byte '\n') := by
        intro same
        exact later (Option.some.inj same ▸ List.mem_cons_self)
      have same : Continued (b :: c :: line) ↔ Continued (c :: line) := by
        unfold Continued
        rw [List.getLast?_cons_cons]
      rw [List.cons_append, joined_cons head, ih later]
      simp only [same]
      split <;> rfl

/-! ## Lines in a text -/

theorem Ended.not_continued {t : Bytes} (h : Ended t) : ¬ Continued t := by
  unfold Continued
  rcases h with rfl | last
  · exact nofun
  · rw [last]
    decide

variable {ls : List Bytes}

theorem unlines_cons (line : Bytes) (ls : List Bytes) :
    Bytes.unlines (line :: ls) = line ++ [byte '\n'] ++ Bytes.unlines ls := List.flatMap_cons

theorem ended_unlines (ls : List Bytes) : Ended (Bytes.unlines ls) := by
  induction ls with
  | nil => exact Or.inl rfl
  | cons line ls ih =>
    rw [unlines_cons]
    exact (Ended.feed line).append ih

theorem lines_unlines (whole : ∀ line, line ∈ ls → byte '\n' ∉ line) :
    lines (Bytes.unlines ls) = ls.map (· ++ [byte '\n']) := by
  induction ls with
  | nil => rfl
  | cons line ls ih =>
    obtain ⟨first, others⟩ := List.forall_mem_cons.mp whole
    rw [unlines_cons, lines_append (Ended.feed line), lines_feed first, ih others]
    rfl

/-- Joining leaves lines alone exactly if none of them is continued. -/
theorem joined_unlines_iff (whole : ∀ line, line ∈ ls → byte '\n' ∉ line) :
    joined (Bytes.unlines ls) = Bytes.unlines ls ↔ ∀ line, line ∈ ls → ¬ Continued line := by
  induction ls with
  | nil => exact iff_of_true rfl (List.forall_mem_nil _)
  | cons line ls ih =>
    obtain ⟨first, others⟩ := List.forall_mem_cons.mp whole
    rw [List.forall_mem_cons, ← ih others, unlines_cons,
      joined_append (Ended.feed line).not_continued, joined_line first]
    by_cases continued : Continued line
    · -- The line is shorter by two bytes then, and nothing makes up for them.
      refine iff_of_false (fun same => ?_) fun both => both.1 continued
      have counts := congrArg List.length same
      rw [if_pos continued] at counts
      have rest := length_joined_le (Bytes.unlines ls)
      simp only [List.length_append, List.length_dropLast, List.length_singleton] at counts
      omega
    · rw [if_neg continued, List.append_cancel_left_eq]
      exact ⟨fun same => ⟨continued, same⟩, fun both => both.2⟩

/-- Lines are logical lines of their own, and leave those around them as they are, exactly if none
of them is continued. -/
theorem logicalLines_between_iff (whole : ∀ line, line ∈ ls → byte '\n' ∉ line) :
    (∀ before after, Whole before → logicalLines (before ++ Bytes.unlines ls ++ after) =
      logicalLines before ++ ls.map (· ++ [byte '\n']) ++ logicalLines after) ↔
    ∀ line, line ∈ ls → ¬ Continued line := by
  rw [← joined_unlines_iff whole]
  constructor
  · intro apart
    have alone := apart [] [] ⟨Or.inl rfl, Or.inl rfl⟩
    simp only [List.nil_append, List.append_nil] at alone
    calc joined (Bytes.unlines ls)
        = (logicalLines (Bytes.unlines ls)).flatten := (flatten_lines _).symm
      _ = (lines (Bytes.unlines ls)).flatten := by
        rw [alone, lines_unlines whole]
        simp [logicalLines, joined, lines]
      _ = Bytes.unlines ls := flatten_lines _
  · intro same before after complete
    have upTo : Ended (before ++ Bytes.unlines ls) := complete.ended.append (ended_unlines ls)
    unfold logicalLines
    rw [joined_append upTo.not_continued, joined_append complete.ended.not_continued, same,
      lines_append (complete.joined.append (ended_unlines ls)), lines_append complete.joined,
      lines_unlines whole]

example : logicalLines (bytes "/// in C:\\\nint b;\n") = [bytes "/// in C:int b;\n"] := by decide

/-! ## Documentation -/

namespace Header

variable {text indent : Bytes}

/-- What documentation takes over of a line of a text. -/
def docText (line : Bytes) : Bytes := dropEndWhile (fun b => b == byte ' ' || b == byte '\r') line

theorem docLine_eq (indent line : Bytes) : docLine indent line =
    indent ++ bytes "///" ++ if docText line = [] then [] else byte ' ' :: docText line := by
  show (if (docText line).isEmpty then row [indent, bytes "///"]
    else row [indent, bytes "/// ", docText line]) = _
  by_cases none : docText line = []
  · simp [none, row]
  · rw [if_neg (by simpa using none), if_neg none]
    simp [row, show bytes "/// " = bytes "///" ++ [byte ' '] from rfl]

theorem continued_docLine (indent line : Bytes) :
    Continued (docLine indent line) ↔ Continued (docText line) := by
  unfold Continued
  rw [docLine_eq]
  by_cases none : docText line = []
  · rw [if_pos none, none, List.append_nil, List.getLast?_append,
      show (bytes "///").getLast? = some (byte '/') from rfl, Option.some_or]
    decide
  · rw [if_neg none, List.getLast?_append, List.getLast?_cons]
    obtain ⟨b, last⟩ := Option.isSome_iff_exists.mp (List.getLast?_isSome.mpr none)
    simp [last]

theorem mem_docComment {line : Bytes} (h : line ∈ docComment text indent) :
    ∃ said, said ∈ Bytes.splitAll (byte '\n') text ∧ docLine indent said = line :=
  List.mem_map.mp (mem_of_mem_dropEndWhile h)

/-- Only lines that say nothing are left out at the end. -/
theorem docLine_mem_docComment {said : Bytes} (h : said ∈ Bytes.splitAll (byte '\n') text)
    (some : docText said ≠ []) : docLine indent said ∈ docComment text indent := by
  unfold docComment
  obtain ⟨back, split, blank⟩ := exists_dropEndWhile (· == row [indent, "///"])
    ((Bytes.splitAll (byte '\n') text).map (docLine indent))
  have there : docLine indent said ∈ (Bytes.splitAll (byte '\n') text).map (docLine indent) :=
    List.mem_map_of_mem h
  rw [split] at there
  refine (List.mem_append.mp there).resolve_right fun dropped => ?_
  have short := blank _ dropped
  rw [docLine_eq, if_neg some] at short
  simp [row] at short

theorem feed_not_mem_docComment (width : Nat) {line : Bytes}
    (h : line ∈ docComment text (List.replicate width (byte ' '))) : byte '\n' ∉ line := by
  obtain ⟨said, part, rfl⟩ := mem_docComment h
  have kept : byte '\n' ∉ docText said := fun inside =>
    Bytes.not_mem_of_mem_splitAll part (mem_of_mem_dropEndWhile inside)
  have front : byte '\n' ∉ List.replicate width (byte ' ') := by simp [byte]
  rw [docLine_eq]
  simp only [List.mem_append, not_or]
  refine ⟨⟨front, by decide⟩, ?_⟩
  split
  · exact List.not_mem_nil
  · rw [List.mem_cons, not_or]
    exact ⟨by decide, kept⟩

/-- Every line of the documentation of a text is a comment line at its indent, and a single one. It
ends with a backslash only where the text has a line that does, leaving spaces and carriage returns
at its end aside. The documentation stays apart from the code around it, wherever it is put, exactly
if the text has no such line. -/
theorem docComment_apart_iff (text : Bytes) (width : Nat) :
    let docs := docComment text (List.replicate width (byte ' '))
    (∀ line, line ∈ docs →
      List.replicate width (byte ' ') ++ bytes "///" <+: line ∧ byte '\n' ∉ line) ∧
    ((∀ line, line ∈ docs → ¬ Continued line) ↔
      ∀ said, said ∈ Bytes.splitAll (byte '\n') text → ¬ Continued (docText said)) ∧
    ((∀ before after, Whole before → logicalLines (before ++ Bytes.unlines docs ++ after) =
        logicalLines before ++ docs.map (· ++ [byte '\n']) ++ logicalLines after) ↔
      ∀ said, said ∈ Bytes.splitAll (byte '\n') text → ¬ Continued (docText said)) := by
  intro docs
  have feed : ∀ line, line ∈ docs → byte '\n' ∉ line := fun line => feed_not_mem_docComment width
  have ends : (∀ line, line ∈ docs → ¬ Continued line) ↔
      ∀ said, said ∈ Bytes.splitAll (byte '\n') text → ¬ Continued (docText said) := by
    constructor
    · intro all said part continued
      have some : docText said ≠ [] := fun none => by simp [Continued, none] at continued
      exact all _ (docLine_mem_docComment part some) ((continued_docLine _ _).mpr continued)
    · intro all line member continued
      obtain ⟨said, part, rfl⟩ := mem_docComment member
      exact all said part ((continued_docLine _ _).mp continued)
  refine ⟨fun line member => ⟨?_, feed line member⟩, ends, ?_⟩
  · obtain ⟨said, -, rfl⟩ := mem_docComment member
    rw [docLine_eq]
    exact List.prefix_append _ _
  · exact (logicalLines_between_iff feed).trans ends

/-- A text that ends with a backslash. -/
def exFolder : Bytes := bytes "as in C:\\ "

/-- Not every comment ends where its line ends: a backslash at the end of a text stays there, and
one that only blanks stand after comes there. -/
theorem not_docComment_apart : ¬ ∀ (text : Bytes) (width : Nat) (line : Bytes),
    line ∈ docComment text (List.replicate width (byte ' ')) →
    List.replicate width (byte ' ') ++ bytes "///" <+: line ∧ byte '\n' ∉ line ∧
      ¬ Continued line := by
  intro apart
  have line : bytes "    /// as in C:\\" ∈ docComment exFolder (List.replicate 4 (byte ' ')) := by
    decide +kernel
  exact (apart exFolder 4 _ line).2.2 rfl

end Header

end HeaderForge
