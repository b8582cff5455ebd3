import HeaderForge.Proofs.Document.Cuts
import HeaderForge.Proofs.Document.Moves
/-!
# Reading comes to an end

A move of a task takes something from the lines in front of it, or goes on as a task that has less
left to do. An item that opens a mapping takes no line: it leaves a shorter one in the place of its
own, and the mapping may return without having used it. So lines alone do not measure what is left,
but lines and bytes together do.

1. `Task.cost` is what a task may take, and `Task.fits` that its first move keeps within it.
2. `exists_runs`: a bound that is no smaller than its cost brings a task to its end.
3. `Iterates.of_sequence` and `Iterates.of_mapping` tell what one iteration of a loop does to the
   lines.
4. `read_terminates` puts these together, and bounds the moves for a text by its length.
-/

namespace HeaderForge

namespace Yaml

/-! ## Counts of flow collections -/

section

variable {item : Bytes → Counted Node} (few : ∀ part, (item part).1 ≤ part.length)
include few

theorem countedItems_le (parts : List Bytes) : (countedItems item parts).1 ≤ totalLength parts := by
  induction parts with
  | nil => exact Nat.le_refl _
  | cons part rest ih =>
    rw [countedItems, totalLength_cons]
    exact Nat.add_le_add (few part) ih

theorem countedEntries_le (line : Nat) (earlier : KeySet) (parts : List Bytes) :
    (countedEntries line item earlier parts).1 ≤ totalLength parts := by
  induction parts generalizing earlier with
  | nil => exact Nat.le_refl _
  | cons part rest ih =>
    rw [countedEntries, totalLength_cons]
    split
    · exact Nat.zero_le _
    · next before after colon =>
      dsimp only
      split
      · exact Nat.zero_le _
      · have whole := congrArg List.length (eq_of_breakAtColon? colon)
        rw [List.length_append, List.length_cons] at whole
        have trimmed := Bytes.trim_length_le after
        have first := few (Bytes.trim after)
        exact Nat.add_le_add (by omega) (ih _)

end

/-- The brackets around a collection are not handed on. -/
theorem totalLength_parts_lt {t : Bytes} (some_byte : t ≠ []) :
    totalLength (flowParts (inside t)) < t.length := by
  have parts := totalLength_flowParts_le (inside t)
  have trimmed := Bytes.trim_length_le (t.drop 1).dropLast
  have positive := List.length_pos_iff.mpr some_byte
  rw [List.length_dropLast, List.length_drop] at trimmed
  unfold inside at *
  omega

/-- A collection is entered at a byte of its own. -/
theorem countedFlow_le (line levels : Nat) {t : Bytes} (some_byte : t ≠ []) :
    (countedFlow line levels t).1 ≤ t.length := by
  induction levels generalizing t with
  | zero => exact List.length_pos_iff.mpr some_byte
  | succ levels ih =>
    have few (part : Bytes) : (if opensFlow part then countedFlow line levels part
        else (0, .ok (scalar part))).1 ≤ part.length := by
      split
      · next opens =>
        refine ih ?_
        rintro rfl
        exact nomatch opens
      · exact Nat.zero_le _
    have fewer := totalLength_parts_lt some_byte
    rw [countedFlow]
    split
    · have items := countedItems_le few (flowParts (inside t))
      dsimp only
      omega
    · have entries := countedEntries_le few line .empty (flowParts (inside t))
      dsimp only
      omega

/-! ## What a task costs -/

/-- One for each line, and one for each byte that it has. -/
def size : List Line → Nat
  | [] => 0
  | line :: after => line.content.length + 1 + size after

theorem size_cons (line : Line) (after : List Line) :
    size (line :: after) = line.content.length + 1 + size after := rfl

theorem size_of_sublist {some all : List Line} (h : some.Sublist all) : size some ≤ size all := by
  induction h with
  | slnil => exact Nat.le_refl _
  | cons line _ ih =>
    rw [size_cons]
    exact Nat.le_add_left_of_le ih
  | cons_cons line _ ih =>
    rw [size_cons, size_cons]
    exact Nat.add_le_add_left ih _

/-- The lines that are left at an end. -/
def linesLeft : Ending → List Line
  | .ok (_, rest) => rest
  | .error _ => []

/-- No more lines than others, and no longer ones. -/
structure Fewer (some all : List Line) : Prop where
  length_le : some.length ≤ all.length
  size_le : size some ≤ size all

theorem Fewer.nil (all : List Line) : Fewer [] all := ⟨Nat.zero_le _, Nat.zero_le _⟩

theorem Fewer.refl (all : List Line) : Fewer all all := ⟨Nat.le_refl _, Nat.le_refl _⟩

theorem Fewer.trans {few some all : List Line} (first : Fewer few some) (second : Fewer some all) :
    Fewer few all :=
  ⟨Nat.le_trans first.length_le second.length_le, Nat.le_trans first.size_le second.size_le⟩

theorem fewer_of_sublist {some all : List Line} (h : some.Sublist all) : Fewer some all :=
  ⟨h.length_le, size_of_sublist h⟩

namespace Task

def lines : Task → List Line
  | block _ _ lines | sequence _ _ _ lines | mapping _ _ _ _ lines | value _ _ _ _ lines => lines

/-- The activations that a task may add to twice the size of what it consumes. -/
def allowance : Task → Nat
  | sequence _ _ _ _ | mapping _ _ _ _ _ => 1
  | block _ _ _ => 2
  | value inline _ _ _ _ => inline.length + 3

/-- The activations that a task takes at most. -/
def cost (task : Task) : Nat := 2 * size task.lines + task.allowance

end Task

/-- A move that keeps within the cost of a task. What is awaited consumes something of it, whatever
it leaves, and then the same loop goes on. -/
inductive Move.Fits (task : Task) : Move → Prop
  | ends {steps : Nat} {ending : Ending} : Fewer (linesLeft ending) task.lines →
      steps + 2 * size (linesLeft ending) ≤ task.cost → Fits task (.ends steps ending)
  | becomes {later : Task} : Fewer later.lines task.lines → later.cost < task.cost →
      Fits task (.becomes later)
  | awaits {inner : Task} {next : Node × List Line → Step Task} :
      inner.lines.length ≤ task.lines.length → size inner.lines < size task.lines →
      inner.cost < 2 * size task.lines →
      (∀ found later, next found = .ok later → later.lines = found.2 ∧ later.allowance = 1) →
      Fits task (.awaits inner next)

theorem dash_length {content : Bytes} (dash : Line.isDash content = true) :
    1 ≤ content.length := by
  cases content with
  | nil => exact nomatch dash
  | cons b rest => exact Nat.le_add_left _ _

/-- What follows a dash is shorter than the content of the line by the dash and a space at least. -/
theorem afterDash_length {content : Bytes} (visible : afterDash content ≠ []) :
    (afterDash content).length + 2 ≤ content.length := by
  have trimmed := Bytes.trim_length_le (content.drop 2)
  have some_byte : 0 < (afterDash content).length := List.length_pos_iff.mpr visible
  rw [List.length_drop] at trimmed
  unfold afterDash at *
  omega

namespace Task

theorem allowance_pos (task : Task) : 0 < task.allowance := by
  cases task <;> exact Nat.succ_pos _

theorem cost_pos (task : Task) : 0 < task.cost := Nat.add_pos_right _ task.allowance_pos

/-- A task may end with all its lines, or be refused. -/
theorem fits_ends (task : Task) (n : Node) :
    (Move.ends 1 (.ok (n, task.lines))).Fits task := by
  have positive := task.allowance_pos
  refine .ends (.refl _) ?_
  simp only [cost, linesLeft]
  omega

theorem fits_error (task : Task) (stop : Stop) : (Move.ends 1 (.error stop)).Fits task :=
  .ends (.nil _) task.cost_pos

theorem fits_block (indent depth : Nat) (lines : List Line) :
    (block indent depth lines).move.Fits (block indent depth lines) := by
  cases lines with
  | nil => exact fits_ends (block indent depth []) _
  | cons line after =>
    rw [move]
    split
    · exact fits_error _ _
    · split
      · exact .becomes (.refl _) (Nat.lt_succ_self _)
      · exact .becomes (.refl _) (Nat.lt_succ_self _)

theorem fits_sequence (indent depth : Nat) (found : List Node) (lines : List Line) :
    (sequence indent depth found lines).move.Fits (sequence indent depth found lines) := by
  cases lines with
  | nil => exact fits_ends (sequence indent depth found []) _
  | cons line after =>
    have whole := size_cons line after
    have item {inner : Task} (few : inner.lines.length ≤ (line :: after).length)
        (less : size inner.lines + 2 ≤ size (line :: after))
        (within : inner.cost < 2 * size (line :: after)) :
        (Move.awaits inner (afterItem indent depth found)).Fits
          (sequence indent depth found (line :: after)) := by
      have fewer : size inner.lines < size (line :: after) := by omega
      refine .awaits few fewer within fun got later next => ?_
      cases next
      exact ⟨rfl, rfl⟩
    have moves := sequenceMoves_move indent depth found line after
    generalize (sequence indent depth found (line :: after)).move = first at moves
    cases moves with
    | ends => exact fits_ends (sequence indent depth found (line :: after)) _
    | nothing =>
      refine .becomes (fewer_of_sublist (List.sublist_cons_self line after)) ?_
      simp only [cost, allowance, Task.lines]
      omega
    | @below next others dash =>
      have some_byte := dash_length dash
      refine item (Nat.le_succ _) ?_ ?_
      · simp only [Task.lines]
        omega
      · simp only [cost, allowance, Task.lines]
        omega
    | entry visible =>
      have shorter := afterDash_length visible
      have opened : size (openedLine indent line :: after) =
          (afterDash line.content).length + 1 + size after := size_cons _ _
      refine item (Nat.le_refl _) ?_ ?_
      · simp only [Task.lines]
        omega
      · simp only [cost, allowance, Task.lines]
        omega
    | value visible =>
      have shorter := afterDash_length visible
      refine item (Nat.le_succ _) ?_ ?_
      · simp only [Task.lines]
        omega
      · simp only [cost, allowance, Task.lines]
        omega

theorem fits_mapping (indent depth : Nat) (found : List (Bytes × Node)) (earlier : KeySet)
    (lines : List Line) : (mapping indent depth found earlier lines).move.Fits
      (mapping indent depth found earlier lines) := by
  cases lines with
  | nil => exact fits_ends (mapping indent depth found earlier []) _
  | cons line after =>
    have moves := mappingMoves_move indent depth found earlier line after
    generalize (mapping indent depth found earlier (line :: after)).move = first at moves
    cases moves with
    | ends => exact fits_ends (mapping indent depth found earlier (line :: after)) _
    | refused => exact fits_error _ _
    | @entry before inline colon =>
      have cut := congrArg List.length (eq_of_breakAtKeyColon? colon)
      rw [List.length_append, List.length_cons] at cut
      have trimmed := Bytes.trim_length_le inline
      have whole := size_cons line after
      refine .awaits (Nat.le_succ _) ?_ ?_ fun got later next => ?_
      · simp only [Task.lines]
        omega
      · simp only [cost, allowance, Task.lines]
        omega
      · obtain ⟨-, rfl⟩ := eq_of_afterEntry next
        exact ⟨rfl, rfl⟩

theorem fits_value (inline : Bytes) (parent line depth : Nat) (lines : List Line) :
    (value inline parent line depth lines).move.Fits (value inline parent line depth lines) := by
  cases inline with
  | nil =>
    cases lines with
    | nil => exact fits_ends (value [] parent line depth []) _
    | cons next after =>
      rw [move]
      split
      · exact .becomes (.refl _) (Nat.lt_succ_self _)
      · split
        · exact .becomes (.refl _) (Nat.lt_add_of_pos_right (Nat.succ_pos 1))
        · exact fits_ends (value [] parent line depth (next :: after)) _
  | cons b text =>
    have whole : (value (b :: text) parent line depth lines).cost =
        2 * size lines + ((b :: text).length + 3) := rfl
    rw [move]
    split
    · have fewer := fewer_of_sublist (List.dropWhile_sublist
        (fun next : Line => decide (next.indent > parent)) (l := lines))
      have left := fewer.size_le
      refine .ends fewer ?_
      simp only [linesLeft]
      omega
    · split
      · split
        · have calls := countedFlow_le line (maxDepth + 1 - depth) (List.cons_ne_nil b text)
          have fewer : Fewer (linesLeft ((countedFlow line (maxDepth + 1 - depth) (b :: text)).2.map
              fun n => (n, lines))) lines := by
            cases (countedFlow line (maxDepth + 1 - depth) (b :: text)).2 with
            | error => exact .nil _
            | ok => exact .refl _
          have left := fewer.size_le
          exact .ends fewer (by omega)
        · exact fits_error _ _
      · exact fits_ends (value (b :: text) parent line depth lines) _

/-- No move of a task costs more than the task. -/
theorem fits : (task : Task) → task.move.Fits task
  | block indent depth lines => fits_block indent depth lines
  | sequence indent depth found lines => fits_sequence indent depth found lines
  | mapping indent depth found earlier lines => fits_mapping indent depth found earlier lines
  | value inline parent line depth lines => fits_value inline parent line depth lines

end Task

/-- A bound that is no smaller than the cost of a task lets the reader come to the end that the task
has without a bound. -/
theorem exists_runs {bound : Nat} {task : Task} (enough : task.cost ≤ bound) :
    ∃ n, Runs task n (task.read bound) ∧
      n + 2 * size (linesLeft (task.read bound)) ≤ task.cost ∧
      Fewer (linesLeft (task.read bound)) task.lines := by
  induction bound generalizing task with
  | zero => exact absurd task.cost_pos (Nat.not_lt.mpr enough)
  | succ bound ih =>
    rw [Task.read_succ]
    have fit := task.fits
    generalize move : task.move = first at fit
    cases fit with
    | ends left within => exact ⟨_, .ends move, within, left⟩
    | @becomes later left less =>
      obtain ⟨n, run, bounded, fewer⟩ := @ih later (by omega)
      exact ⟨n + 1, .becomes move run, by simp only [Move.perform]; omega, fewer.trans left⟩
    -- What is awaited costs less than the task, and what goes on has only the lines left after it.
    | @awaits inner next few less within goesOn =>
      have positive := task.allowance_pos
      have whole : task.cost = 2 * size task.lines + task.allowance := rfl
      obtain ⟨m, run, bounded, fewer⟩ := @ih inner (by omega)
      simp only [Move.perform]
      generalize inner.read bound = got at run bounded fewer
      cases got with
      | error stop =>
        refine ⟨m + 1, .failed move run, ?_, .nil _⟩
        simp only [bind, Except.bind, linesLeft, size] at bounded ⊢
        omega
      | ok found =>
        cases after : next found with
        | error stop =>
          simp only [bind, Except.bind, after]
          refine ⟨m + 1, .refused move run after, ?_, .nil _⟩
          simp only [linesLeft, size] at bounded ⊢
          omega
        | ok later =>
          obtain ⟨lines, allowance⟩ := goesOn found later after
          have fewer : Fewer later.lines inner.lines := lines ▸ fewer
          have left := fewer.size_le
          have cost : later.cost = 2 * size later.lines + 1 := by rw [Task.cost, allowance]
          have spent : m + 2 * size later.lines ≤ inner.cost := lines ▸ bounded
          obtain ⟨n, run', bounded', fewer'⟩ := @ih later (by omega)
          simp only [bind, Except.bind, after]
          refine ⟨m + n + 1, .goesOn move run after run', by omega, fewer'.trans ⟨?_, ?_⟩⟩
          · exact Nat.le_trans fewer.length_le few
          · omega

namespace Runs

variable {task : Task} {n : Nat} {ending : Ending}

/-- What a task ends with is what the reader makes of it with any bound that is no smaller than the
cost of the task. -/
theorem read_eq (h : Runs task n ending) {bound : Nat} (enough : task.cost ≤ bound) :
    task.read bound = ending := by
  obtain ⟨_, run, -⟩ := exists_runs enough
  exact (h.unique run).2

theorem le_cost (h : Runs task n ending) : n + 2 * size (linesLeft ending) ≤ task.cost := by
  obtain ⟨_, run, bounded, -⟩ := exists_runs (Nat.le_refl task.cost)
  obtain ⟨rfl, equal⟩ := h.unique run
  rwa [equal] at bounded

theorem fewer (h : Runs task n ending) : Fewer (linesLeft ending) task.lines := by
  obtain ⟨_, run, -, fewer⟩ := exists_runs (Nat.le_refl task.cost)
  rwa [(h.unique run).2] at fewer

end Runs

/-! ## Iterations -/

/-- One iteration of a loop. -/
inductive Iterates (task later : Task) : Prop
  | atOnce : task.move = .becomes later → Iterates task later
  | waiting {inner : Task} {next : Node × List Line → Step Task} {found : Node × List Line}
      {m : Nat} : task.move = .awaits inner next → Runs inner m (.ok found) →
      next found = .ok later → Iterates task later

/-- How an iteration of a sequence changes the lines that are left: it consumes the first one, or it
puts another one into its place, which stands further to the right and is shorter. -/
inductive Advances (indent : Nat) : List Line → List Line → Prop
  | consumed {line : Line} {after left : List Line} : left.length ≤ after.length →
      Advances indent (line :: after) left
  | reentered {line opened : Line} {after : List Line} : indent < opened.indent →
      opened.content.length < line.content.length →
      Advances indent (line :: after) (opened :: after)

/-- A mapping leaves all its lines, or no more than those that follow the first one. -/
theorem Runs.left_of_mapping {indent depth n : Nat} {found : List (Bytes × Node)} {earlier : KeySet}
    {line : Line} {after left : List Line} {node : Node}
    (h : Runs (.mapping indent depth found earlier (line :: after)) n (.ok (node, left))) :
    left = line :: after ∨ left.length ≤ after.length := by
  have moves := Task.mappingMoves_move indent depth found earlier line after
  cases h with
  | ends move =>
    rw [move] at moves
    cases moves
    exact .inl rfl
  | becomes move =>
    rw [move] at moves
    exact nomatch moves
  | goesOn move first next later =>
    rw [move] at moves
    cases moves
    obtain ⟨-, rfl⟩ := Task.eq_of_afterEntry next
    exact .inr (Nat.le_trans later.fewer.length_le first.fewer.length_le)

/-- A sequence ends where a line stands further to the right. -/
theorem Task.ends_of_further {indent depth : Nat} {found : List Node} {line : Line}
    {after : List Line} (further : indent < line.indent) :
    (sequence indent depth found (line :: after)).move =
      .ends 1 (.ok (.arr found, line :: after)) := by
  have other : (line.indent != indent || !Line.isDash line.content) = true := by
    simp [Nat.ne_of_gt further]
  rw [move.eq_def]
  exact if_pos other

theorem Iterates.of_sequence {indent depth : Nat} {found : List Node} {lines : List Line}
    {later : Task} (h : Iterates (.sequence indent depth found lines) later) :
    ∃ item left, later = .sequence indent depth (found ++ [item]) left ∧
      Advances indent lines left := by
  cases lines with
  | nil =>
    cases h with
    | atOnce move => exact nomatch move
    | waiting move => exact nomatch move
  | cons line after =>
    have moves := Task.sequenceMoves_move indent depth found line after
    cases h with
    | atOnce move =>
      rw [move] at moves
      cases moves
      exact ⟨_, _, rfl, .consumed (Nat.le_refl _)⟩
    | @waiting inner next got m move run next =>
      obtain ⟨item, left⟩ := got
      have few := run.fewer.length_le
      rw [move] at moves
      cases moves with
      | below | value =>
        cases next
        exact ⟨item, left, rfl, .consumed few⟩
      | entry visible =>
        cases next
        refine ⟨item, left, rfl, ?_⟩
        have shorter := afterDash_length visible
        rcases run.left_of_mapping with rfl | less
        · refine .reentered ?_ ?_
          · simp only [openedLine]
            omega
          · simp only [openedLine]
            omega
        · exact .consumed less

theorem Iterates.of_mapping {indent depth : Nat} {found : List (Bytes × Node)} {earlier : KeySet}
    {lines : List Line} {later : Task}
    (h : Iterates (.mapping indent depth found earlier lines) later) :
    ∃ entry left, later = .mapping indent depth (found ++ [entry]) (earlier.insert entry.1) left ∧
      left.length < lines.length := by
  cases lines with
  | nil =>
    cases h with
    | atOnce move => exact nomatch move
    | waiting move => exact nomatch move
  | cons line after =>
    have moves := Task.mappingMoves_move indent depth found earlier line after
    cases h with
    | atOnce move =>
      rw [move] at moves
      exact nomatch moves
    | waiting move run next =>
      have few := run.fewer.length_le
      rw [move] at moves
      cases moves
      obtain ⟨-, rfl⟩ := Task.eq_of_afterEntry next
      exact ⟨_, _, rfl, Nat.lt_succ_of_le few⟩

/-! ## Whole texts -/

theorem beforeComment?_length {s : Scan} {afterBlank : Bool} {t before : Bytes}
    (h : beforeComment? s afterBlank t = some before) : before.length ≤ t.length := by
  induction t generalizing s afterBlank before with
  | nil => exact nomatch h
  | cons b rest ih =>
    rw [beforeComment?] at h
    split at h
    · cases h
      exact Nat.zero_le _
    · obtain ⟨front, found, rfl⟩ := Option.map_eq_some_iff.mp h
      exact Nat.succ_le_succ (ih found)

theorem dropComment_length_le (content : Bytes) :
    (dropComment content).length ≤ content.length := by
  unfold dropComment
  split
  · next before found =>
    exact Nat.le_trans (Bytes.trim_length_le before) (beforeComment?_length found)
  · exact Nat.le_refl _

theorem content_length_le {number : Nat} {piece : Bytes} {line : Line}
    (h : Line.ofPiece? number piece = some line) : line.content.length ≤ piece.length := by
  have whole : (Line.dropCarriageReturn piece).length ≤ piece.length := by
    unfold Line.dropCarriageReturn
    split
    · exact (List.dropLast_sublist piece).length_le
    · exact Nat.le_refl _
  unfold Line.ofPiece? at h
  dsimp only at h
  split at h
  · exact nomatch h
  · cases h
    have content := dropComment_length_le (Bytes.trim ((Line.dropCarriageReturn piece).drop
      ((Line.dropCarriageReturn piece).takeWhile (· == byte ' ')).length))
    have raw := Bytes.trim_length_le ((Line.dropCarriageReturn piece).drop
      ((Line.dropCarriageReturn piece).takeWhile (· == byte ' ')).length)
    rw [List.length_drop] at raw
    dsimp only
    omega

theorem size_ofPieces_le (number : Nat) (pieces : List Bytes) :
    size (Line.ofPieces number pieces) ≤ totalLength pieces + pieces.length := by
  induction pieces generalizing number with
  | nil => exact Nat.le_refl _
  | cons piece rest ih =>
    have others := ih (number + 1)
    rw [Line.ofPieces, totalLength_cons, List.length_cons]
    split
    · next line found =>
      have content := content_length_le found
      rw [size_cons]
      omega
    · omega

theorem size_ofText_le (t : Bytes) : size (Line.ofText t) ≤ t.length + 1 := by
  have lines := size_ofPieces_le 1 (Bytes.splitAll (byte '\n') t)
  rw [totalLength_splitAll] at lines
  exact lines

/-- The bound that the reader is given is enough. -/
theorem size_le_weight (lines : List Line) : 2 * size lines + 2 ≤ weight lines := by
  induction lines with
  | nil => exact Nat.le_add_left _ _
  | cons line after ih =>
    simp only [weight, List.map_cons, List.foldr_cons] at ih ⊢
    rw [size_cons]
    omega

/-- A document is the block of all its lines. -/
def wholeBlock : Node × List Line → Step Node
  | (n, []) => .ok n
  | (_, left :: _) => .error ⟨left.number, .unexpectedIndentation⟩

theorem read_of_runs {t : Bytes} {first : Line} {after : List Line} {n : Nat} {ending : Ending}
    (text : Line.ofText t = first :: after)
    (run : Runs (.block first.indent 0 (first :: after)) n ending) :
    read t = (ending >>= wholeBlock).mapError Stop.describe := by
  have root : block (weight (first :: after)) first.indent 0 (first :: after) = ending :=
    run.read_eq (size_le_weight (first :: after))
  rw [read, text]
  simp only [document, root]
  cases ending with
  | error => rfl
  | ok found =>
    obtain ⟨n, rest⟩ := found
    cases rest <;> rfl

/-- Reading comes to an end on every text. An iteration of a sequence or a mapping consumes a line,
or it puts a shorter one that stands further to the right into its place, and then the sequence ends
at that line. So whatever is to be read, it ends in one way, after no more activations and
iterations than its lines and their bytes allow, and the reader finds the same as long as its bound
is no smaller. For a document, its length is what counts. -/
theorem read_terminates :
    (∀ indent depth found lines later, Iterates (.sequence indent depth found lines) later →
      ∃ item left, later = .sequence indent depth (found ++ [item]) left ∧
        Advances indent lines left ∧
        (left.length < lines.length ∨
          later.move = .ends 1 (.ok (.arr (found ++ [item]), left)))) ∧
    (∀ indent depth found earlier lines later,
      Iterates (.mapping indent depth found earlier lines) later →
      ∃ entry left, later = .mapping indent depth (found ++ [entry]) (earlier.insert entry.1) left ∧
        left.length < lines.length) ∧
    (∀ task, ∃ n ending, Runs task n ending ∧ n ≤ task.cost ∧
      (∀ n' ending', Runs task n' ending' → n' = n ∧ ending' = ending) ∧
      ∀ bound, task.cost ≤ bound → task.read bound = ending) ∧
    ∀ t first after, Line.ofText t = first :: after →
      ∃ n ending, Runs (.block first.indent 0 (first :: after)) n ending ∧
        n ≤ 2 * t.length + 4 ∧ read t = (ending >>= wholeBlock).mapError Stop.describe := by
  refine ⟨?_, ?_, ?_, ?_⟩
  · intro indent depth found lines later h
    obtain ⟨item, left, rfl, advances⟩ := h.of_sequence
    refine ⟨item, left, rfl, advances, ?_⟩
    cases advances with
    | consumed less => exact .inl (Nat.lt_succ_of_le less)
    | reentered further => exact .inr (Task.ends_of_further further)
  · intro indent depth found earlier lines later h
    exact h.of_mapping
  · intro task
    obtain ⟨n, run, -⟩ := exists_runs (Nat.le_refl task.cost)
    have within := run.le_cost
    exact ⟨n, _, run, by omega, fun _ _ => run.unique, fun _ => run.read_eq⟩
  · intro t first after text
    obtain ⟨n, run, bounded, -⟩ := exists_runs
      (Nat.le_refl (Task.block first.indent 0 (first :: after)).cost)
    have short := size_ofText_le t
    rw [text] at short
    refine ⟨n, _, run, ?_, read_of_runs text run⟩
    simp only [Task.cost, Task.allowance, Task.lines] at bounded
    omega

/-- An item within an item on one line: the mapping that the inner one opens has nothing in it. -/
def exDashes : Bytes := bytes "- - a: b"

def exDashLine : Line := ⟨0, exDashes, exDashes, 1⟩

theorem read_terminates_exDashes :
    Iterates (.sequence 0 0 [] [exDashLine])
      (.sequence 0 0 [.obj []] [openedLine 0 exDashLine]) ∧
    Advances 0 [exDashLine] [openedLine 0 exDashLine] ∧
    Line.ofText exDashes = [exDashLine] ∧
    ∃ n ending, Runs (.block 0 0 [exDashLine]) n ending ∧ n ≤ 2 * exDashes.length + 4 ∧
      read exDashes = (ending >>= wholeBlock).mapError Stop.describe := by
  have step : Iterates (.sequence 0 0 [] [exDashLine])
      (.sequence 0 0 [.obj []] [openedLine 0 exDashLine]) :=
    .waiting rfl (.ends rfl) rfl
  have text : Line.ofText exDashes = [exDashLine] := rfl
  obtain ⟨item, left, equal, advances, -⟩ := read_terminates.1 0 0 [] [exDashLine] _ step
  cases equal
  exact ⟨step, advances, text, read_terminates.2.2.2 exDashes exDashLine [] text⟩

end Yaml

end HeaderForge
