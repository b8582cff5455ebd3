import HeaderForge.Proofs.Document.Blocks
import HeaderForge.Proofs.Document.Cuts
import HeaderForge.Proofs.Files.Path
import Mathlib.Data.List.Forall2
/-!
# Layout

What a block is follows from how its lines are indented against each other. So a document may stand
anywhere on the page, and its lines may end as they like: the indentation that all lines share goes
into no comparison, into no column and into no block scalar, and a carriage return before a line
feed is a blank at the end of a line.

1. `Line.ofText_indented` and `Line.ofText_withReturns` are the lines of a text that is indented
   further, and of one with other line ends.
2. `ReadsShifted` says of the four functions of the block reader at once that they read lines that
   stand further to the right as they read the lines, and leave the same ones.
3. `read_layout` is what follows for documents.
-/

namespace HeaderForge

/-! ## Texts with other margins and line ends -/

namespace Bytes

/-- A text with so many spaces in front of each of its lines. -/
def indented (k : Nat) (t : Bytes) : Bytes := (lines t).flatMap (List.replicate k (byte ' ') ++ ·)

/-- A text with a carriage return in front of each of its line feeds. -/
def withReturns (t : Bytes) : Bytes :=
  t.flatMap fun b => if b == byte '\n' then [byte '\r', b] else [b]

theorem splitAll_feed (stop : UInt8) (t : Bytes) :
    splitAll stop (stop :: t) = [] :: splitAll stop t := by
  rw [splitAll, if_pos (beq_self_eq_true stop)]

/-- A byte that is no stop belongs to the first piece. -/
theorem splitAll_cons {stop b : UInt8} (other : b ≠ stop) {t first : Bytes} {others : List Bytes}
    (h : splitAll stop t = first :: others) :
    splitAll stop (b :: t) = (b :: first) :: others := by
  rw [splitAll, if_neg (by simpa using other), h]

theorem splitAll_append_of_not_mem {stop : UInt8} {front : Bytes} (plain : stop ∉ front)
    {t first : Bytes} {others : List Bytes} (h : splitAll stop t = first :: others) :
    splitAll stop (front ++ t) = (front ++ first) :: others := by
  induction front with
  | nil => exact h
  | cons b front ih =>
    obtain ⟨other, later⟩ := not_or.mp (mt List.mem_cons.mpr plain)
    exact splitAll_cons (Ne.symm other) (ih later)

end Bytes

namespace Yaml

namespace Line

/-! ## Lines -/

/-- A line that stands further to the right. -/
def shifted (k : Nat) (line : Line) : Line := { line with indent := line.indent + k }

theorem shifted_indent (k : Nat) (line : Line) : (shifted k line).indent = line.indent + k := rfl
theorem shifted_content (k : Nat) (line : Line) : (shifted k line).content = line.content := rfl
theorem shifted_number (k : Nat) (line : Line) : (shifted k line).number = line.number := rfl

/-- A piece of a text holds the line of another one, further to the right. -/
def Shifts (k : Nat) (piece piece' : Bytes) : Prop :=
  ∀ number, ofPiece? number piece' = (ofPiece? number piece).map (shifted k)

/-- The line of a piece that has lost its carriage return. -/
def ofBare? (number : Nat) (bare : Bytes) : Option Line :=
  let indent := (bare.takeWhile (· == byte ' ')).length
  let raw := Bytes.trim (bare.drop indent)
  if raw.isEmpty || raw.head? = some (byte '#') || raw = bytes "---" || raw = bytes "..." then none
  else some ⟨indent, dropComment raw, raw, number⟩

theorem ofPiece?_eq (number : Nat) (piece : Bytes) :
    ofPiece? number piece = ofBare? number (dropCarriageReturn piece) := rfl

theorem dropCarriageReturn_append {front : Bytes} (plain : front.getLast? ≠ some (byte '\r'))
    (piece : Bytes) :
    dropCarriageReturn (front ++ piece) = front ++ dropCarriageReturn piece := by
  unfold dropCarriageReturn
  by_cases empty : piece = []
  · subst empty
    simp [plain]
  · have last : (front ++ piece).getLast? = piece.getLast? := by
      rw [List.getLast?_append, List.getLast?_eq_some_getLast empty]
      rfl
    rw [last]
    split
    · exact List.dropLast_append_of_ne_nil empty
    · rfl

theorem ofBare?_spaces (k number : Nat) (bare : Bytes) :
    ofBare? number (List.replicate k (byte ' ') ++ bare) =
      (ofBare? number bare).map (shifted k) := by
  have indent : (List.replicate k (byte ' ') ++ bare).takeWhile (· == byte ' ') =
      List.replicate k (byte ' ') ++ bare.takeWhile (· == byte ' ') :=
    List.takeWhile_append_of_pos (by simp)
  have raw (n : Nat) : (List.replicate k (byte ' ') ++ bare).drop (k + n) = bare.drop n := by
    simp [List.drop_append]
  simp only [ofBare?, indent, List.length_append, List.length_replicate, raw]
  split
  · rfl
  · simp [shifted, Nat.add_comm]

/-- A carriage return is a blank at the end like any other. -/
theorem ofBare?_return (number : Nat) (bare : Bytes) :
    ofBare? number (bare ++ [byte '\r']) = ofBare? number bare := by
  have indent : (bare ++ [byte '\r']).takeWhile (· == byte ' ') =
      bare.takeWhile (· == byte ' ') := by
    rw [List.takeWhile_append]
    split
    · next whole =>
      rw [(List.takeWhile_prefix _).eq_of_length whole]
      exact List.append_nil bare
    · rfl
  have raw : Bytes.trim ((bare ++ [byte '\r']).drop (bare.takeWhile (· == byte ' ')).length) =
      Bytes.trim (bare.drop (bare.takeWhile (· == byte ' ')).length) := by
    rw [List.drop_append_of_le_length (List.takeWhile_prefix _).length_le]
    exact Bytes.trim_append_blank rfl _
  simp only [ofBare?, indent, raw]

theorem shifts_spaces (k : Nat) (piece : Bytes) :
    Shifts k piece (List.replicate k (byte ' ') ++ piece) := by
  intro number
  rw [ofPiece?_eq, ofPiece?_eq, dropCarriageReturn_append, ofBare?_spaces]
  intro last
  have space := List.eq_of_mem_replicate (List.mem_of_getLast? last)
  exact absurd space (by decide)

/-- Nothing holds no line, wherever it stands. -/
theorem shifts_nil (k : Nat) : Shifts k [] [] := fun _ => rfl

theorem shifts_self (piece : Bytes) : Shifts 0 piece piece := by
  intro number
  cases ofPiece? number piece <;> rfl

theorem shifts_return (piece : Bytes) : Shifts 0 piece (piece ++ [byte '\r']) := by
  intro number
  have dropped : dropCarriageReturn (piece ++ [byte '\r']) = piece := by
    simp [dropCarriageReturn]
  have kept : ofBare? number piece = ofBare? number (dropCarriageReturn piece) := by
    unfold dropCarriageReturn
    split
    · next last =>
      obtain ⟨front, rfl⟩ := List.getLast?_eq_some_iff.mp last
      rw [ofBare?_return, List.dropLast_concat]
    · rfl
  rw [ofPiece?_eq, dropped, kept]
  exact shifts_self piece number

theorem ofPieces_shifts {k : Nat} {pieces pieces' : List Bytes}
    (h : List.Forall₂ (Shifts k) pieces pieces') (number : Nat) :
    ofPieces number pieces' = (ofPieces number pieces).map (shifted k) := by
  induction h generalizing number with
  | nil => rfl
  | cons first _ ih =>
    rw [ofPieces, ofPieces, first number, ih]
    cases ofPiece? number _ <;> rfl

/-- The first piece of a text that is indented stays as it is behind the spaces. -/
theorem exists_indented (k : Nat) {t : Bytes} (some_byte : t ≠ []) :
    ∃ u piece pieces pieces', Bytes.indented k t = List.replicate k (byte ' ') ++ u ∧
      Bytes.splitAll (byte '\n') t = piece :: pieces ∧
      Bytes.splitAll (byte '\n') u = piece :: pieces' ∧
      List.Forall₂ (Shifts k) pieces pieces' := by
  have plain : byte '\n' ∉ List.replicate k (byte ' ') := by simp [byte]
  induction t with
  | nil => exact absurd rfl some_byte
  | cons b rest ih =>
    by_cases feed : b = byte '\n'
    · subst feed
      refine ⟨byte '\n' :: Bytes.indented k rest, [], _, _, ?_, Bytes.splitAll_feed _ _,
        Bytes.splitAll_feed _ _, ?_⟩
      · simp [Bytes.indented, lines]
      · by_cases last : rest = []
        · subst last
          exact .cons (shifts_nil k) .nil
        · obtain ⟨u, piece, pieces, pieces', text, before, after, others⟩ := ih last
          rw [text, before, Bytes.splitAll_append_of_not_mem plain after]
          exact .cons (shifts_spaces k piece) others
    · by_cases last : rest = []
      · subst last
        have one : Bytes.splitAll (byte '\n') [b] = [[b]] :=
          Bytes.splitAll_of_not_mem (by simpa using Ne.symm feed)
        refine ⟨[b], [b], [], [], ?_, one, one, .nil⟩
        simp [Bytes.indented, lines, feed]
      · obtain ⟨u, piece, pieces, pieces', text, before, after, others⟩ := ih last
        refine ⟨b :: u, b :: piece, pieces, pieces', ?_, Bytes.splitAll_cons feed before,
          Bytes.splitAll_cons feed after, others⟩
        cases split : lines rest with
        | nil => exact absurd (lines_eq_nil split) last
        | cons line more =>
          rw [Bytes.indented, split, List.flatMap_cons, List.append_assoc] at text
          have behind := List.append_cancel_left text
          simp [Bytes.indented, lines, feed, split, ← behind]

theorem ofText_indented (k : Nat) (t : Bytes) :
    ofText (Bytes.indented k t) = (ofText t).map (shifted k) := by
  by_cases empty : t = []
  · subst empty
    rfl
  · obtain ⟨u, piece, pieces, pieces', text, before, after, others⟩ := exists_indented k empty
    have plain : byte '\n' ∉ List.replicate k (byte ' ') := by simp [byte]
    have first := shifts_spaces k piece
    rw [ofText, ofText, text, before, Bytes.splitAll_append_of_not_mem plain after]
    exact ofPieces_shifts (.cons first others) 1

theorem shifts_withReturns (t : Bytes) :
    List.Forall₂ (fun piece piece' => piece' = piece ∨ piece' = piece ++ [byte '\r'])
      (Bytes.splitAll (byte '\n') t) (Bytes.splitAll (byte '\n') (Bytes.withReturns t)) := by
  induction t with
  | nil => exact .cons (.inl rfl) .nil
  | cons b rest ih =>
    by_cases feed : b = byte '\n'
    · subst feed
      have text : Bytes.withReturns (byte '\n' :: rest) =
          byte '\r' :: byte '\n' :: Bytes.withReturns rest := by simp [Bytes.withReturns]
      rw [text, Bytes.splitAll_feed, Bytes.splitAll_cons (by decide) (Bytes.splitAll_feed _ _)]
      exact .cons (.inr rfl) ih
    · have text : Bytes.withReturns (b :: rest) = b :: Bytes.withReturns rest := by
        simp [Bytes.withReturns, feed]
      rw [text]
      generalize before : Bytes.splitAll (byte '\n') rest = pieces at ih
      generalize after : Bytes.splitAll (byte '\n') (Bytes.withReturns rest) = pieces' at ih
      cases ih with
      | nil => exact absurd before (Bytes.splitAll_ne_nil _ _)
      | cons first others =>
        rw [Bytes.splitAll_cons feed before, Bytes.splitAll_cons feed after]
        refine .cons ?_ others
        rcases first with rfl | rfl
        · exact .inl rfl
        · exact .inr rfl

theorem ofText_withReturns (t : Bytes) : ofText (Bytes.withReturns t) = ofText t := by
  have pieces : List.Forall₂ (Shifts 0) (Bytes.splitAll (byte '\n') t)
      (Bytes.splitAll (byte '\n') (Bytes.withReturns t)) := by
    refine (shifts_withReturns t).imp fun piece piece' ends => ?_
    rcases ends with rfl | rfl
    · exact shifts_self _
    · exact shifts_return piece
  have unmoved : shifted 0 = id := rfl
  rw [ofText, ofPieces_shifts pieces, unmoved, List.map_id, ofText]

end Line

/-! ## Blocks further to the right -/

/-- What a step returns, with the lines that it leaves further to the right. -/
def leftShifted {α : Type} (k : Nat) (step : Step (α × List Line)) : Step (α × List Line) :=
  step.map fun (a, rest) => (a, rest.map (Line.shifted k))

section

variable {α β : Type} {k : Nat}

theorem map_leftShifted (f : α → β) (step : Step (α × List Line)) :
    ((leftShifted k step).map fun (a, rest) => (f a, rest)) =
      leftShifted k (step.map fun (a, rest) => (f a, rest)) := by
  cases step <;> rfl

theorem bind_leftShifted {step : Step (α × List Line)} {f g : α × List Line → Step (β × List Line)}
    (later : ∀ a rest, f (a, rest.map (Line.shifted k)) = leftShifted k (g (a, rest))) :
    (leftShifted k step >>= f) = leftShifted k (step >>= g) := by
  cases step with
  | error => rfl
  | ok found => exact later found.1 found.2

end

theorem addItem_leftShifted (item : Node) (more : Step (List Node × List Line)) :
    addItem item (leftShifted k more) = leftShifted k (addItem item more) :=
  map_leftShifted (item :: ·) more

/-- A block scalar keeps what its lines are indented beyond the first one. -/
theorem blockText_shifted (k : Nat) (header : Bytes) (lines : List Line) :
    blockText header (lines.map (Line.shifted k)) = blockText header lines := by
  cases lines with
  | nil => rfl
  | cons first others =>
    have raws : ((first :: others).map (Line.shifted k)).map Line.raw =
        (first :: others).map Line.raw := by
      rw [List.map_map]
      rfl
    have literal : ((first :: others).map (Line.shifted k)).map (literalLine (first.indent + k)) =
        (first :: others).map (literalLine first.indent) := by
      rw [List.map_map]
      refine List.map_congr_left fun line _ => ?_
      simp [literalLine, Line.shifted, Nat.add_sub_add_right]
    have base : (((first :: others).map (Line.shifted k)).head?.map Line.indent).getD 0 =
        first.indent + k := rfl
    rw [blockText, blockText, raws, base, literal]
    rfl

/-- The functions of the block reader do the same at any distance from the left. -/
structure ReadsShifted (k bound : Nat) : Prop where
  ofBlock : ∀ indent depth lines, block bound (indent + k) depth (lines.map (Line.shifted k)) =
    leftShifted k (block bound indent depth lines)
  ofSequence : ∀ indent depth lines,
    sequence bound (indent + k) depth (lines.map (Line.shifted k)) =
      leftShifted k (sequence bound indent depth lines)
  ofMapping : ∀ indent depth earlier lines,
    mapping bound (indent + k) depth earlier (lines.map (Line.shifted k)) =
      leftShifted k (mapping bound indent depth earlier lines)
  ofNested : ∀ inline parent line depth lines,
    nested bound inline (parent + k) line depth (lines.map (Line.shifted k)) =
      leftShifted k (nested bound inline parent line depth lines)

section

variable {k bound : Nat} (less : ReadsShifted k bound)
include less

theorem ReadsShifted.block_succ (indent depth : Nat) (lines : List Line) :
    block (bound + 1) (indent + k) depth (lines.map (Line.shifted k)) =
      leftShifted k (block (bound + 1) indent depth lines) := by
  cases lines with
  | nil => simp [block, leftShifted, Except.map]
  | cons line after =>
    have items := less.ofSequence indent depth (line :: after)
    have entries := less.ofMapping indent depth .empty (line :: after)
    rw [List.map_cons] at items entries ⊢
    rw [block, block, items, entries]
    by_cases deep : depth > maxDepth
    · rw [if_pos deep, if_pos deep]
      rfl
    · rw [if_neg deep, if_neg deep]
      cases dash : Line.isDash line.content
      · simp only [Line.shifted, dash, Bool.false_eq_true, if_false]
        exact map_leftShifted Node.obj _
      · simp only [Line.shifted, dash, if_true]
        exact map_leftShifted Node.arr _

theorem ReadsShifted.nested_succ (inline : Bytes) (parent line depth : Nat) (lines : List Line) :
    nested (bound + 1) inline (parent + k) line depth (lines.map (Line.shifted k)) =
      leftShifted k (nested (bound + 1) inline parent line depth lines) := by
  rw [nested.eq_def, nested.eq_def]
  cases inline with
  | nil =>
    cases lines with
    | nil => rfl
    | cons next after =>
      have below := less.ofBlock next.indent depth (next :: after)
      have beside := less.ofSequence parent depth (next :: after)
      have level : (next.indent + k == parent + k) = (next.indent == parent) := by
        simp only [BEq.beq, Nat.add_right_cancel_iff]
      rw [List.map_cons] at below beside
      simp only [List.head?_nil, List.map_cons, Line.shifted, gt_iff_lt, Nat.add_lt_add_iff_right,
        level]
      split
      · exact below
      · split
        · rw [← map_leftShifted, ← beside]
          rfl
        · rfl
  | cons b text =>
    have inBlock : (fun next : Line => decide (next.indent > parent + k)) ∘ Line.shifted k =
        fun next => decide (next.indent > parent) := by
      funext next
      simp [Line.shifted]
    simp only [List.head?_cons]
    split
    · rw [List.takeWhile_map, List.dropWhile_map, inBlock, blockText_shifted]
      rfl
    · split
      · split
        · cases flow line (maxDepth + 1 - depth) (b :: text) <;> rfl
        · rfl
      · rfl

theorem ReadsShifted.mapping_succ (indent depth : Nat) (earlier : KeySet) (lines : List Line) :
    mapping (bound + 1) (indent + k) depth earlier (lines.map (Line.shifted k)) =
      leftShifted k (mapping (bound + 1) indent depth earlier lines) := by
  cases lines with
  | nil => simp [mapping, leftShifted, Except.map]
  | cons line after =>
    rw [List.map_cons, mapping, mapping, Line.shifted_indent, Line.shifted_content,
      Line.shifted_number]
    simp only [gt_iff_lt, Nat.add_lt_add_iff_right]
    split
    · rfl
    · split
      · rfl
      · by_cases dash : Line.isDash line.content = true
        · rw [if_pos dash, if_pos dash]
          rfl
        · rw [if_neg dash, if_neg dash]
          cases breakAtKeyColon? .start line.content with
          | none => rfl
          | some cut =>
            simp only [less.ofNested]
            refine bind_leftShifted fun item left => ?_
            dsimp only
            split
            · rfl
            · rw [less.ofMapping]
              exact bind_leftShifted fun entries rest => rfl

theorem ReadsShifted.sequence_succ (indent depth : Nat) (lines : List Line) :
    sequence (bound + 1) (indent + k) depth (lines.map (Line.shifted k)) =
      leftShifted k (sequence (bound + 1) indent depth lines) := by
  cases lines with
  | nil => simp [sequence, leftShifted, Except.map]
  | cons line after =>
    have level : (line.indent + k != indent + k) = (line.indent != indent) := by
      simp only [bne, BEq.beq, Nat.add_right_cancel_iff]
    have opened : (⟨indent + k + (line.content.length - (afterDash line.content).length),
        afterDash line.content, line.raw, line.number⟩ : Line) =
          (openedLine indent line).shifted k := by
      rw [openedLine, Line.shifted, Nat.add_right_comm]
    have more (item : Node) (left : List Line) :
        addItem item (sequence bound (indent + k) depth (left.map (Line.shifted k))) =
          leftShifted k (addItem item (sequence bound indent depth left)) := by
      rw [less.ofSequence, addItem_leftShifted]
    rw [List.map_cons, sequence, sequence, Line.shifted_indent, Line.shifted_content,
      Line.shifted_number, level]
    split
    · rfl
    · dsimp only
      split
      · cases after with
        | nil => exact more .null []
        | cons next after =>
          have below := less.ofBlock next.indent (depth + 1) (next :: after)
          rw [List.map_cons] at below ⊢
          simp only [List.head?_cons, Option.map_some, Option.getD_some, Line.shifted_indent,
            gt_iff_lt, Nat.add_lt_add_iff_right]
          split
          · rw [below]
            exact bind_leftShifted more
          · exact more .null (next :: after)
      · split
        · have inner := less.ofMapping (openedLine indent line).indent (depth + 1) .empty
            (openedLine indent line :: after)
          rw [List.map_cons, ← opened, openedLine, Nat.add_right_comm] at inner
          refine Eq.trans (congrArg (· >>= _) inner) ?_
          exact bind_leftShifted fun entries left => more (.obj entries) left
        · rw [less.ofNested]
          exact bind_leftShifted more

end

theorem readsShifted (k bound : Nat) : ReadsShifted k bound := by
  induction bound with
  | zero =>
    -- No line has moved out of the order, so the first one has the number that it had.
    refine ⟨?_, ?_, ?_, ?_⟩
    all_goals intros
    all_goals simp only [block, sequence, mapping, nested, leftShifted, Except.map, List.head?_map,
      Option.map_map, Function.comp_def, Line.shifted]
  | succ bound less =>
    exact ⟨less.block_succ, less.sequence_succ, less.mapping_succ, less.nested_succ⟩

theorem document_shifted (k : Nat) (lines : List Line) :
    document (lines.map (Line.shifted k)) = document lines := by
  cases lines with
  | nil => rfl
  | cons first after =>
    have same : weight ((first :: after).map (Line.shifted k)) = weight (first :: after) := by
      rw [weight, List.map_map]
      rfl
    have root := (readsShifted k (weight (first :: after))).ofBlock first.indent 0 (first :: after)
    rw [List.map_cons] at same root ⊢
    rw [document, document, same]
    simp only [Line.shifted] at root ⊢
    rw [root]
    cases block (weight (first :: after)) first.indent 0 (first :: after) with
    | error => rfl
    | ok found =>
      obtain ⟨n, rest⟩ := found
      cases rest <;> rfl

theorem read_eq (t : Bytes) : read t = if Line.ofText t = [] then .error (bytes "empty document")
    else (document (Line.ofText t)).mapError Stop.describe := by
  unfold read
  split
  · next empty => rw [if_pos empty]
  · next lines some_line => rw [if_neg some_line]

/-- Only how far lines are indented against each other counts, and not what their ends are: the same
tree is read, or the same line is refused for the same reason, when every line is indented by more
spaces and when every line feed follows a carriage return. -/
theorem read_layout (t : Bytes) (k : Nat) :
    read (Bytes.indented k t) = read t ∧ read (Bytes.withReturns t) = read t := by
  constructor
  · rw [read_eq, read_eq, Line.ofText_indented, document_shifted]
    simp only [List.map_eq_nil_iff]
  · rw [read_eq, Line.ofText_withReturns, ← read_eq]

end Yaml
end HeaderForge
