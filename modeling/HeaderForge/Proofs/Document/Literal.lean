import HeaderForge.Proofs.Document.Cuts
import HeaderForge.Proofs.Document.Inline
import HeaderForge.Proofs.Document.Layout
import Mathlib.Data.List.TakeWhile
/-!
# Literal scalars

A text is cut into its lines before it is known which of them belong to a block scalar. What means
nothing elsewhere is gone by then: a literal scalar has lost its empty lines, the lines that look
like comments or document marks, and the tabs that a line starts with. It keeps all others, as they
stand to the right of the first one.

1. `literalText` is a document with a literal scalar, and `keptLines` what is left of its lines.
2. `Kept` are the lines that nothing happens to.
3. `read_literalText`: the scalar is read as the lines that are left, which are the lines that were
   written where nothing happens to any of them, and only there.
-/

namespace HeaderForge

namespace Yaml

/-! ## Documents with a literal scalar -/

/-- A line below the mark of a literal scalar. Empty lines stay empty. -/
def padded (line : Bytes) : Bytes :=
  if line = [] then [] else List.replicate 2 (byte ' ') ++ line

/-- A document whose only entry is a literal scalar of the given lines. -/
def literalText (lines : List Bytes) : Bytes :=
  bytes "d: |" ++ lines.flatMap fun line => byte '\n' :: padded line

/-- No blank stands at the end of a text. -/
def EndsVisibly (t : Bytes) : Prop := ∀ b, b ∈ t.getLast? → Byte.isBlank b = false

instance : DecidablePred EndsVisibly := fun t =>
  decidable_of_iff ((t.getLast?.all fun b => !Byte.isBlank b) = true)
    (by simp [EndsVisibly, Option.all_eq_true])

/-- The lines that a literal scalar can be written with: nothing shows where one ends but the line
feed after it, and the first and the last one show how far the scalar is indented. -/
structure LiteralLines (lines : List Bytes) : Prop where
  feed : ∀ line, line ∈ lines → byte '\n' ∉ line
  ends : ∀ line, line ∈ lines → EndsVisibly line
  first : ∃ b rest others, lines = (b :: rest) :: others ∧ Byte.isBlank b = false
  last : ∃ others b rest, lines = others ++ [b :: rest] ∧ Byte.isBlank b = false

/-- What is left of the lines of a literal scalar. -/
def keptLines (lines : List Bytes) : List Bytes :=
  let found := Line.ofPieces 2 lines
  found.map (literalLine ((found.head?.map Line.indent).getD 0))

/-- A line that a literal scalar keeps as it stands: after its spaces comes a byte that is neither a
blank nor a hash sign, and what comes is no document mark. -/
structure Kept (line : Bytes) : Prop where
  visible : ∃ b rest, line.dropWhile (· == byte ' ') = b :: rest ∧ Byte.isBlank b = false ∧
    b ≠ byte '#'
  noStart : line.dropWhile (· == byte ' ') ≠ bytes "---"
  noEnd : line.dropWhile (· == byte ' ') ≠ bytes "..."

/-! ## Reading the scalar -/

theorem splitAll_literalText {lines : List Bytes} (feed : ∀ line, line ∈ lines → byte '\n' ∉ line) :
    Bytes.splitAll (byte '\n') (literalText lines) = bytes "d: |" :: lines.map padded := by
  have below (front : Bytes) (plain : byte '\n' ∉ front) : Bytes.splitAll (byte '\n')
      (front ++ lines.flatMap fun line => byte '\n' :: padded line) =
        front :: lines.map padded := by
    induction lines generalizing front with
    | nil =>
      rw [List.flatMap_nil, List.append_nil]
      exact Bytes.splitAll_of_not_mem plain
    | cons line lines ih =>
      obtain ⟨here, later⟩ := List.forall_mem_cons.mp feed
      have padding : byte '\n' ∉ padded line := by
        unfold padded
        split
        · exact List.not_mem_nil
        · exact fun member => (List.mem_append.mp member).elim (by decide) here
      rw [List.flatMap_cons, List.cons_append, Bytes.splitAll_append,
        Bytes.splitAll_of_not_mem plain, ih later (padded line) padding]
      rfl
  exact below _ (by decide)

theorem ofPieces_append_nil (number : Nat) (pieces : List Bytes) :
    Line.ofPieces number (pieces ++ [[]]) = Line.ofPieces number pieces := by
  induction pieces generalizing number with
  | nil => rfl
  | cons piece pieces ih => rw [List.cons_append, Line.ofPieces, Line.ofPieces, ih]

/-- The first line of the document. -/
def literalHead : Line := ⟨0, bytes "d: |", bytes "d: |", 1⟩

theorem ofText_literalText {lines : List Bytes} (feed : ∀ line, line ∈ lines → byte '\n' ∉ line)
    {ending : Bytes} (ended : ending = [] ∨ ending = [byte '\n']) :
    Line.ofText (literalText lines ++ ending) =
      literalHead :: (Line.ofPieces 2 lines).map (Line.shifted 2) := by
  have shifts : List.Forall₂ (Line.Shifts 2) lines (lines.map padded) := by
    rw [List.forall₂_map_right_iff]
    refine List.forall₂_same.mpr fun line _ => ?_
    unfold padded
    split
    · next empty =>
      subst empty
      exact Line.shifts_nil 2
    · exact Line.shifts_spaces 2 line
  have text : Line.ofText (literalText lines) =
      literalHead :: (Line.ofPieces 2 lines).map (Line.shifted 2) := by
    rw [Line.ofText, splitAll_literalText feed, ← Line.ofPieces_shifts shifts 2]
    rfl
  rcases ended with rfl | rfl
  · rw [List.append_nil, text]
  · rw [Line.ofText, Bytes.splitAll_append]
    exact (ofPieces_append_nil 1 _).trans text

/-- A literal scalar takes all lines that stand further to the right than its entry. -/
theorem nested_literal {parent line depth bound : Nat} {lines : List Line}
    (inBlock : ∀ next, next ∈ lines → parent < next.indent) :
    nested (bound + 1) (bytes "|") parent line depth lines =
      .ok (.str (blockText (bytes "|") lines), []) := by
  have all : ∀ next, next ∈ lines → decide (next.indent > parent) = true := by
    simpa using inBlock
  have taken : lines.takeWhile (fun next => decide (next.indent > parent)) = lines :=
    List.takeWhile_eq_self_iff.mpr all
  have left : lines.dropWhile (fun next => decide (next.indent > parent)) = [] :=
    List.dropWhile_eq_nil_iff.mpr all
  rw [nested.eq_def]
  simp [bytes, byte, taken, left]

theorem unlines_eq_join {parts : List Bytes} (some_part : parts ≠ []) :
    Bytes.unlines parts = Bytes.join [byte '\n'] parts ++ [byte '\n'] := by
  induction parts with
  | nil => exact absurd rfl some_part
  | cons part rest ih =>
    cases rest with
    | nil => simp [Bytes.unlines, Bytes.join]
    | cons next rest =>
      have more := ih (List.cons_ne_nil next rest)
      simp only [Bytes.unlines, List.flatMap_cons] at more ⊢
      simp [Bytes.join, more]

theorem raw_ne_nil {number : Nat} {pieces : List Bytes} {line : Line}
    (member : line ∈ Line.ofPieces number pieces) : line.raw ≠ [] := by
  induction pieces generalizing number with
  | nil => exact absurd member List.not_mem_nil
  | cons piece pieces ih =>
    rw [Line.ofPieces] at member
    split at member
    · next found here =>
      rcases List.mem_cons.mp member with rfl | later
      · unfold Line.ofPiece? at here
        dsimp only at here
        split at here
        · cases here
        · next some_byte =>
          cases here
          simp only [Bool.or_eq_true, List.isEmpty_iff, not_or] at some_byte
          exact some_byte.1.1.1
      · exact ih later
    · exact ih member

theorem blockText_kept (lines : List Bytes) :
    blockText (bytes "|") (Line.ofPieces 2 lines) = Bytes.unlines (keptLines lines) := by
  have text : blockText (bytes "|") (Line.ofPieces 2 lines) =
      if (Bytes.join [byte '\n'] (keptLines lines)).isEmpty then
        Bytes.join [byte '\n'] (keptLines lines)
      else Bytes.join [byte '\n'] (keptLines lines) ++ [byte '\n'] := rfl
  have some_byte : [] ∉ keptLines lines := fun member => by
    obtain ⟨found, inLines, empty⟩ := List.mem_map.mp member
    exact raw_ne_nil inLines (List.append_eq_nil_iff.mp empty).2
  rw [text]
  cases kept : keptLines lines with
  | nil => rfl
  | cons first others =>
    have visible : first ≠ [] := by
      rintro rfl
      exact some_byte (kept ▸ List.mem_cons_self)
    have joined : Bytes.join [byte '\n'] (first :: others) ≠ [] := by
      cases others with
      | nil => exact visible
      | cons next others => exact List.append_ne_nil_of_left_ne_nil (by simp) _
    rw [unlines_eq_join (List.cons_ne_nil first others), if_neg (by simpa using joined)]

/-! ## What is left of a line -/

/-- The spaces that a text starts with. -/
def spaces (t : Bytes) : Bytes := t.takeWhile (· == byte ' ')

theorem drop_spaces (t : Bytes) : t.drop (spaces t).length = t.dropWhile (· == byte ' ') := by
  have whole := @List.drop_left _ (spaces t) (t.dropWhile (· == byte ' '))
  rwa [spaces, List.takeWhile_append_dropWhile] at whole

theorem spaces_eq (t : Bytes) : spaces t = List.replicate (spaces t).length (byte ' ') := by
  refine List.eq_replicate_length.mpr fun b member => ?_
  simpa using List.all_eq_true.mp List.all_takeWhile b member

theorem dropCarriageReturn_of_endsVisibly {t : Bytes} (ends : EndsVisibly t) :
    Line.dropCarriageReturn t = t := by
  have other : t.getLast? ≠ some (byte '\r') := fun last => nomatch ends _ last
  rw [Line.dropCarriageReturn, if_neg other]

theorem ofPiece?_of_endsVisibly {line : Bytes} (ends : EndsVisibly line) (number : Nat) :
    Line.ofPiece? number line =
      let raw := Bytes.trim (line.dropWhile (· == byte ' '))
      if raw.isEmpty || raw.head? = some (byte '#') || raw = bytes "---" || raw = bytes "..." then
        none
      else some ⟨(spaces line).length, dropComment raw, raw, number⟩ := by
  rw [Line.ofPiece?_eq, dropCarriageReturn_of_endsVisibly ends, ← drop_spaces]
  rfl

theorem length_eq_spaces_add (line : Bytes) :
    line.length = (spaces line).length + (line.dropWhile (· == byte ' ')).length := by
  rw [spaces, ← List.length_append, List.takeWhile_append_dropWhile]

/-- A line that is kept is found with all that it has behind its spaces. -/
theorem Kept.ofPiece? {line : Bytes} (kept : Kept line) (ends : EndsVisibly line) (number : Nat) :
    ∃ content, Line.ofPiece? number line =
      some ⟨(spaces line).length, content, line.dropWhile (· == byte ' '), number⟩ := by
  obtain ⟨b, rest, text, visible, hash⟩ := kept.visible
  have last : EndsVisibly (b :: rest) := fun c last => by
    refine ends c ?_
    rw [← List.takeWhile_append_dropWhile (p := (· == byte ' ')) (l := line), text,
      List.getLast?_append, last]
    rfl
  have tight : Tight (b :: rest) := by
    have some_byte := List.cons_ne_nil b rest
    exact ⟨⟨b, rest, rfl, visible⟩, ⟨_, _, (List.dropLast_append_getLast some_byte).symm,
      last _ (List.getLast?_eq_some_getLast some_byte)⟩⟩
  have raw : Bytes.trim (line.dropWhile (· == byte ' ')) = line.dropWhile (· == byte ' ') := by
    rw [text, tight.trim]
  refine ⟨dropComment (line.dropWhile (· == byte ' ')), ?_⟩
  rw [ofPiece?_of_endsVisibly ends, raw]
  refine if_neg ?_
  have start := kept.noStart
  have stop := kept.noEnd
  rw [text] at start stop ⊢
  simp [hash, start, stop]

/-- What is left of a line is no longer than the line, and only where it is kept as long. -/
theorem length_literalLine {line : Bytes} {number : Nat} {found : Line} (ends : EndsVisibly line)
    (h : Line.ofPiece? number line = some found) (base : Nat) :
    (literalLine base found).length ≤ line.length ∧
      ((literalLine base found).length = line.length → Kept line) := by
  rw [ofPiece?_of_endsVisibly ends] at h
  dsimp only at h
  split at h
  · exact nomatch h
  · next special =>
    cases h
    have shorter := Bytes.trim_length_le (line.dropWhile (· == byte ' '))
    have whole := length_eq_spaces_add line
    simp only [literalLine, List.length_append, List.length_replicate]
    refine ⟨by omega, fun equal => ?_⟩
    have raw := Bytes.trim_eq_self (t := line.dropWhile (· == byte ' ')) (by omega)
    rw [raw] at special
    simp only [Bool.or_eq_true, List.isEmpty_iff, decide_eq_true_eq, not_or] at special
    obtain ⟨⟨⟨some_byte, hash⟩, start⟩, stop⟩ := special
    refine ⟨?_, start, stop⟩
    obtain ⟨b, rest, text⟩ := List.exists_cons_of_ne_nil some_byte
    rw [text] at raw
    refine ⟨b, rest, text, Bytes.visible_of_trim_cons raw, ?_⟩
    rintro rfl
    exact hash (by rw [text]; rfl)

section

variable {lines : List Bytes} (ends : ∀ line, line ∈ lines → EndsVisibly line)
include ends

/-- Lines that are all kept are left as they are. -/
theorem map_literalLine_of_kept (kept : ∀ line, line ∈ lines → Kept line) (number : Nat) :
    (Line.ofPieces number lines).map (literalLine 0) = lines := by
  induction lines generalizing number with
  | nil => rfl
  | cons line lines ih =>
    obtain ⟨here, later⟩ := List.forall_mem_cons.mp kept
    obtain ⟨visible, others⟩ := List.forall_mem_cons.mp ends
    obtain ⟨content, found⟩ := here.ofPiece? visible number
    rw [Line.ofPieces, found]
    simp only [List.map_cons, ih others later, literalLine, Nat.sub_zero, ← spaces_eq]
    rw [spaces, List.takeWhile_append_dropWhile]

/-- What is left of lines is no longer than the lines, and only where all are kept as long. -/
theorem length_unlines_literalLine (base number : Nat) :
    (Bytes.unlines ((Line.ofPieces number lines).map (literalLine base))).length ≤
        (Bytes.unlines lines).length ∧
      ((Bytes.unlines ((Line.ofPieces number lines).map (literalLine base))).length =
        (Bytes.unlines lines).length → ∀ line, line ∈ lines → Kept line) := by
  induction lines generalizing number with
  | nil => exact ⟨Nat.le_refl _, fun _ => List.forall_mem_nil _⟩
  | cons line lines ih =>
    obtain ⟨visible, others⟩ := List.forall_mem_cons.mp ends
    obtain ⟨shorter, all⟩ := ih others (number + 1)
    have whole (first : Bytes) (rest : List Bytes) : (Bytes.unlines (first :: rest)).length =
        first.length + 1 + (Bytes.unlines rest).length := by
      rw [Bytes.unlines, List.flatMap_cons, List.length_append, List.length_append]
      rfl
    rw [Line.ofPieces, whole line lines]
    cases piece : Line.ofPiece? number line with
    | none =>
      dsimp only
      exact ⟨by omega, fun equal => by omega⟩
    | some found =>
      obtain ⟨less, kept⟩ := length_literalLine visible piece base
      dsimp only
      rw [List.map_cons, whole]
      refine ⟨by omega, fun equal => List.forall_mem_cons.mpr ⟨kept (by omega), all (by omega)⟩⟩

end

theorem keptLines_eq {lines : List Bytes} (proper : LiteralLines lines)
    (kept : ∀ line, line ∈ lines → Kept line) : keptLines lines = lines := by
  have base : ((Line.ofPieces 2 lines).head?.map Line.indent).getD 0 = 0 := by
    obtain ⟨b, rest, others, rfl, visible⟩ := proper.first
    obtain ⟨content, found⟩ := (kept _ List.mem_cons_self).ofPiece?
      (proper.ends _ List.mem_cons_self) 2
    have other : b ≠ byte ' ' := by
      rintro rfl
      exact nomatch visible
    rw [Line.ofPieces, found]
    simp [spaces, other]
  rw [keptLines, base]
  exact map_literalLine_of_kept proper.ends kept 2

/-- A literal scalar is read as what is left of its lines, each ended by a line feed. -/
theorem read_keptLines {lines : List Bytes} (feed : ∀ line, line ∈ lines → byte '\n' ∉ line)
    {ending : Bytes} (ended : ending = [] ∨ ending = [byte '\n']) :
    read (literalText lines ++ ending) =
      .ok (.obj [(bytes "d", .str (Bytes.unlines (keptLines lines)))]) := by
  have text := ofText_literalText feed ended
  have inBlock (next : Line)
      (member : next ∈ (Line.ofPieces 2 lines).map (Line.shifted 2)) : 0 < next.indent := by
    obtain ⟨found, -, rfl⟩ := List.mem_map.mp member
    exact Nat.succ_pos _
  have scalar (bound : Nat) : nested (bound + 1) (bytes "|") 0 1 1
      ((Line.ofPieces 2 lines).map (Line.shifted 2)) =
        .ok (.str (Bytes.unlines (keptLines lines)), []) := by
    rw [nested_literal inBlock, blockText_shifted, blockText_kept]
  generalize (Line.ofPieces 2 lines).map (Line.shifted 2) = below at text scalar
  obtain ⟨bound, enough⟩ : ∃ bound, weight (literalHead :: below) - 1 = bound + 2 :=
    ⟨weight (literalHead :: below) - 3, by
      simp only [weight, List.map_cons, List.foldr_cons]
      omega⟩
  refine read_mapping text rfl ?_
  rw [enough]
  exact mapping_last literalHead rfl rfl (scalar bound)

/-- A literal scalar is read as what is left of its lines. That is what was written if all lines are
kept as they stand, and only then: a line that is empty or looks like a comment or a document mark
is lost, and so are the tabs behind the spaces of a line. -/
theorem read_literalText {lines : List Bytes} (proper : LiteralLines lines) {ending : Bytes}
    (ended : ending = [] ∨ ending = [byte '\n']) :
    read (literalText lines ++ ending) =
        .ok (.obj [(bytes "d", .str (Bytes.unlines (keptLines lines)))]) ∧
      (Bytes.unlines (keptLines lines) = Bytes.unlines lines ↔
        ∀ line, line ∈ lines → Kept line) := by
  refine ⟨read_keptLines proper.feed ended, fun equal => ?_, fun kept => ?_⟩
  · exact (length_unlines_literalLine proper.ends _ 2).2 (congrArg List.length equal)
  · rw [keptLines_eq proper kept]

/-- Lines with an indented item, and with a hash sign behind other text. -/
def exLines : List Bytes := [bytes "Pets:", bytes "  - cats # and dogs", bytes "-- end"]

theorem read_literalText_exLines :
    LiteralLines exLines ∧ (∀ line, line ∈ exLines → Kept line) ∧
      read (literalText exLines ++ [byte '\n']) =
        .ok (.obj [(bytes "d", .str (Bytes.unlines exLines))]) := by
  have proper : LiteralLines exLines :=
    ⟨by decide, by decide, ⟨_, _, _, rfl, by decide⟩, ⟨[_, _], _, _, rfl, by decide⟩⟩
  have kept : ∀ line, line ∈ exLines → Kept line := by
    simp only [exLines, List.forall_mem_cons]
    refine ⟨?_, ?_, ?_, List.forall_mem_nil _⟩
    all_goals exact ⟨⟨_, _, rfl, by decide, by decide⟩, by decide, by decide⟩
  obtain ⟨reads, same⟩ := read_literalText proper (.inr rfl)
  rw [same.mpr kept] at reads
  exact ⟨proper, kept, reads⟩

/-- An empty line and one that looks like a comment, between two others. -/
def exLost : List Bytes := [bytes "a", [], bytes "# b", bytes "c"]

/-- A literal scalar does not keep its lines in general. -/
theorem not_readsLiteral : ¬ ∀ lines ending, LiteralLines lines →
    ending = [] ∨ ending = [byte '\n'] → read (literalText lines ++ ending) =
      .ok (.obj [(bytes "d", .str (Bytes.unlines lines))]) := by
  intro reads
  have proper : LiteralLines exLost :=
    ⟨by decide, by decide, ⟨_, _, _, rfl, by decide⟩, ⟨[_, _, _], _, _, rfl, by decide⟩⟩
  have same := (reads exLost [byte '\n'] proper (.inr rfl)).symm.trans
    (read_keptLines proper.feed (.inr rfl))
  have left : keptLines exLost = [bytes "a", bytes "c"] := by decide
  rw [left] at same
  exact nomatch same

end Yaml

end HeaderForge
