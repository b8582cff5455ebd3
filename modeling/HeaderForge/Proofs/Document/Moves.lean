import HeaderForge.Proofs.Document.Blocks
/-!
# Reading without a bound

The reader of blocks spends a bound on its way through the lines. Here it is told without one: what
is to be read is a task, the first thing that a task does is its move, and a task runs to an end by
making moves. A loop makes one for each of its iterations, so the length of a run counts activations
and iterations alike.

1. `countedFlow` reads a flow collection and counts how often one is entered; without its counts it
   is `flow`.
2. `Task.move` is the first move of a task.
3. `Runs` says how a task ends and after how many moves, and `Runs.unique` that it ends in one way
   at most.
4. `Task.read_succ`: the reader makes these moves, and spends one of its bound on each.
-/

namespace HeaderForge

namespace Yaml

/-! ## Flow collections -/

/-- What is read, and how often a flow collection was entered for it. -/
abbrev Counted (α : Type) := Nat × Step α

/-- What is read first, put to what is read after it. A refusal of the first one does not keep the
others from being entered. -/
def Counted.before {α β γ : Type} (put : α → β → γ) (first : Counted α) (others : Counted β) :
    Counted γ :=
  (first.1 + others.1, do return put (← first.2) (← others.2))

/-- As `flowItems`, with counts. All parts are entered. -/
def countedItems (item : Bytes → Counted Node) : List Bytes → Counted (List Node)
  | [] => (0, .ok [])
  | part :: rest => (item part).before .cons (countedItems item rest)

/-- As `flowEntries`, with counts. The parts are entered up to one that is no entry or has a key that
came before. -/
def countedEntries (line : Nat) (item : Bytes → Counted Node) :
    (earlier : KeySet) → List Bytes → Counted (List (Bytes × Node))
  | _, [] => (0, .ok [])
  | earlier, part :: rest =>
    match breakAtColon? .start part with
    | none => (0, .error ⟨line, .expectedFlowEntry⟩)
    | some (before, after) =>
      let key := keyText before
      if earlier.contains key then (0, .error ⟨line, .duplicateFlowKey key⟩)
      else
        (item (Bytes.trim after)).before (fun first others => (key, first) :: others)
          (countedEntries line item (earlier.insert key) rest)

/-- As `flow`, with counts: each call is one. -/
def countedFlow (line : Nat) : (levels : Nat) → Bytes → Counted Node
  | 0, _ => (1, .error ⟨line, .tooDeep⟩)
  | levels + 1, t =>
    let item := fun part =>
      if opensFlow part then countedFlow line levels part else (0, .ok (scalar part))
    if t.head? = some (byte '[') then
      let (n, items) := countedItems item (flowParts (inside t))
      (n + 1, items.map .arr)
    else
      let (n, entries) := countedEntries line item .empty (flowParts (inside t))
      (n + 1, entries.map .obj)

theorem countedItems_snd (item : Bytes → Counted Node) (parts : List Bytes) :
    (countedItems item parts).2 = flowItems (fun part => (item part).2) parts := by
  induction parts with
  | nil => rfl
  | cons part rest ih =>
    rw [countedItems, flowItems, ← ih]
    rfl

theorem countedEntries_snd (line : Nat) (item : Bytes → Counted Node) (earlier : KeySet)
    (parts : List Bytes) : (countedEntries line item earlier parts).2 =
      flowEntries line (fun part => (item part).2) earlier parts := by
  induction parts generalizing earlier with
  | nil => rfl
  | cons part rest ih =>
    rw [countedEntries, flowEntries]
    cases breakAtColon? .start part with
    | none => rfl
    | some cut =>
      dsimp only
      split
      · rfl
      · rw [← ih]
        rfl

/-- Without its counts, this is how a flow collection is read. -/
theorem countedFlow_snd (line levels : Nat) (t : Bytes) :
    (countedFlow line levels t).2 = flow line levels t := by
  induction levels generalizing t with
  | zero => rfl
  | succ levels ih =>
    have item : (fun part => (if opensFlow part then countedFlow line levels part
        else (0, .ok (scalar part))).2) =
        fun part => if opensFlow part then flow line levels part else .ok (scalar part) := by
      funext part
      split
      · exact ih part
      · rfl
    rw [countedFlow, flow]
    split
    · dsimp only
      rw [countedItems_snd, item]
    · dsimp only
      rw [countedEntries_snd, item]

/-- The first item is refused, and the second one is entered nevertheless. -/
example : (countedFlow 1 maxDepth (bytes "[{x}, [b]]")).1 = 3 := by decide

/-! ## Tasks -/

/-- What is to be read, by an activation of one of the functions or by what is left of a loop, which
has found something already. -/
inductive Task where
  | block (indent depth : Nat) (lines : List Line)
  | sequence (indent depth : Nat) (found : List Node) (lines : List Line)
  | mapping (indent depth : Nat) (found : List (Bytes × Node)) (earlier : KeySet)
      (lines : List Line)
  | value (inline : Bytes) (parent line depth : Nat) (lines : List Line)

/-- What comes of a task: what is read and the lines after it, or a refusal. -/
abbrev Ending := Step (Node × List Line)

/-- What a task does first. -/
inductive Move where
  /-- It ends, after so many activations. -/
  | ends (steps : Nat) (ending : Ending)
  /-- It goes on as another task. -/
  | becomes (task : Task)
  /-- It waits for another task, and goes on with what that has read. -/
  | awaits (inner : Task) (next : Node × List Line → Step Task)

/-- A sequence goes on after an item. -/
def Task.afterItem (indent depth : Nat) (found : List Node) : Node × List Line → Step Task
  | (item, left) => .ok (sequence indent depth (found ++ [item]) left)

/-- A mapping goes on after an entry, unless it has the key already. -/
def Task.afterEntry (indent depth : Nat) (found : List (Bytes × Node)) (earlier : KeySet)
    (line : Nat) (key : Bytes) : Node × List Line → Step Task
  | (item, left) =>
    if earlier.contains key then .error ⟨line, .duplicateKey key⟩
    else .ok (mapping indent depth (found ++ [(key, item)]) (earlier.insert key) left)

/-- The first move of a task. A loop makes one for each of its iterations. -/
def Task.move : Task → Move
  | block _ _ [] => .ends 1 (.ok (.obj [], []))
  | block indent depth (line :: after) =>
    if depth > maxDepth then .ends 1 (.error ⟨line.number, .tooDeep⟩)
    else if Line.isDash line.content then .becomes (sequence indent depth [] (line :: after))
    else .becomes (mapping indent depth [] .empty (line :: after))
  | sequence _ _ found [] => .ends 1 (.ok (.arr found, []))
  | sequence indent depth found (line :: after) =>
    if line.indent != indent || !Line.isDash line.content then
      .ends 1 (.ok (.arr found, line :: after))
    else if afterDash line.content = [] then
      match after with
      | [] => .becomes (sequence indent depth (found ++ [.null]) [])
      | below :: others =>
        if below.indent > indent then
          .awaits (block below.indent (depth + 1) (below :: others)) (afterItem indent depth found)
        else .becomes (sequence indent depth (found ++ [.null]) (below :: others))
    else if opensEntry line.content then
      .awaits (mapping (openedLine indent line).indent (depth + 1) [] .empty
        (openedLine indent line :: after)) (afterItem indent depth found)
    else
      .awaits (value (afterDash line.content) indent line.number (depth + 1) after)
        (afterItem indent depth found)
  | mapping _ _ found _ [] => .ends 1 (.ok (.obj found, []))
  | mapping indent depth found earlier (line :: after) =>
    if line.indent < indent then .ends 1 (.ok (.obj found, line :: after))
    else if line.indent > indent then .ends 1 (.error ⟨line.number, .unexpectedIndentation⟩)
    else if Line.isDash line.content then .ends 1 (.ok (.obj found, line :: after))
    else
      match breakAtKeyColon? .start line.content with
      | none => .ends 1 (.error ⟨line.number, .expectedEntry⟩)
      | some (before, inline) =>
        .awaits (value (Bytes.trim inline) indent line.number (depth + 1) after)
          (afterEntry indent depth found earlier line.number (keyText before))
  | value [] _ _ _ [] => .ends 1 (.ok (.null, []))
  | value [] parent _ depth (next :: after) =>
    if next.indent > parent then .becomes (block next.indent depth (next :: after))
    else if next.indent == parent && Line.isDash next.content then
      .becomes (sequence parent depth [] (next :: after))
    else .ends 1 (.ok (.null, next :: after))
  | value (b :: text) parent line depth lines =>
    if b == byte '|' || b == byte '>' then
      let inBlock := fun (next : Line) => decide (next.indent > parent)
      .ends 1 (.ok (.str (blockText (b :: text) (lines.takeWhile inBlock)),
        lines.dropWhile inBlock))
    else if opensFlow (b :: text) then
      if (b :: text).getLast? = some (closing (b :: text)) then
        let (calls, read) := countedFlow line (maxDepth + 1 - depth) (b :: text)
        .ends (1 + calls) (read.map fun n => (n, lines))
      else .ends 1 (.error ⟨line, .openFlow⟩)
    else .ends 1 (.ok (scalar (b :: text), lines))

namespace Task

/-- The moves of a sequence that has lines left: it ends, it has an item with nothing in it, or it
waits for an item. -/
inductive SequenceMoves (indent depth : Nat) (found : List Node) (line : Line) :
    List Line → Move → Prop
  | ends {after : List Line} :
      SequenceMoves indent depth found line after (.ends 1 (.ok (.arr found, line :: after)))
  | nothing {after : List Line} : SequenceMoves indent depth found line after
      (.becomes (sequence indent depth (found ++ [.null]) after))
  | below {next : Line} {others : List Line} : Line.isDash line.content = true →
      SequenceMoves indent depth found line (next :: others)
        (.awaits (block next.indent (depth + 1) (next :: others)) (afterItem indent depth found))
  | entry {after : List Line} : afterDash line.content ≠ [] →
      SequenceMoves indent depth found line after
        (.awaits (mapping (openedLine indent line).indent (depth + 1) [] .empty
          (openedLine indent line :: after)) (afterItem indent depth found))
  | value {after : List Line} : afterDash line.content ≠ [] →
      SequenceMoves indent depth found line after
        (.awaits (value (afterDash line.content) indent line.number (depth + 1) after)
          (afterItem indent depth found))

theorem sequenceMoves_move (indent depth : Nat) (found : List Node) (line : Line)
    (after : List Line) : SequenceMoves indent depth found line after
      (sequence indent depth found (line :: after)).move := by
  rw [move.eq_def]
  dsimp only
  split
  · exact .ends
  · next here =>
    obtain ⟨-, dash⟩ : line.indent = indent ∧ Line.isDash line.content = true := by
      simpa using here
    split
    · cases after with
      | nil => exact .nothing
      | cons next others =>
        dsimp only
        split
        · exact .below dash
        · exact .nothing
    · next visible =>
      split
      · exact .entry visible
      · exact .value visible

/-- The moves of a mapping that has lines left: it ends, it refuses the first one, or it waits for
the value of an entry. -/
inductive MappingMoves (indent depth : Nat) (found : List (Bytes × Node)) (earlier : KeySet)
    (line : Line) (after : List Line) : Move → Prop
  | ends : MappingMoves indent depth found earlier line after
      (.ends 1 (.ok (.obj found, line :: after)))
  | refused {stop : Stop} :
      MappingMoves indent depth found earlier line after (.ends 1 (.error stop))
  | entry {before inline : Bytes} :
      breakAtKeyColon? .start line.content = some (before, inline) →
      MappingMoves indent depth found earlier line after
        (.awaits (value (Bytes.trim inline) indent line.number (depth + 1) after)
          (afterEntry indent depth found earlier line.number (keyText before)))

theorem mappingMoves_move (indent depth : Nat) (found : List (Bytes × Node)) (earlier : KeySet)
    (line : Line) (after : List Line) : MappingMoves indent depth found earlier line after
      (mapping indent depth found earlier (line :: after)).move := by
  rw [move]
  split
  · exact .ends
  · split
    · exact .refused
    · split
      · exact .ends
      · split
        · exact .refused
        · next colon => exact .entry colon

/-- Where a mapping goes on after an entry, its key is new. -/
theorem eq_of_afterEntry {indent depth line : Nat} {found : List (Bytes × Node)} {earlier : KeySet}
    {key : Bytes} {got : Node × List Line} {later : Task}
    (h : afterEntry indent depth found earlier line key got = .ok later) :
    earlier.contains key = false ∧
      later = mapping indent depth (found ++ [(key, got.1)]) (earlier.insert key) got.2 := by
  obtain ⟨item, left⟩ := got
  rw [afterEntry] at h
  split at h
  · cases h
  · next new =>
    cases h
    exact ⟨Bool.eq_false_iff.mpr new, rfl⟩

end Task

/-- Reading without a bound: a task ends so after so many activations and iterations. -/
inductive Runs : Task → Nat → Ending → Prop
  | ends {task : Task} {steps : Nat} {ending : Ending} :
      task.move = .ends steps ending → Runs task steps ending
  | becomes {task later : Task} {n : Nat} {ending : Ending} :
      task.move = .becomes later → Runs later n ending → Runs task (n + 1) ending
  | goesOn {task inner later : Task} {next : Node × List Line → Step Task}
      {found : Node × List Line} {m n : Nat} {ending : Ending} :
      task.move = .awaits inner next → Runs inner m (.ok found) → next found = .ok later →
      Runs later n ending → Runs task (m + n + 1) ending
  | refused {task inner : Task} {next : Node × List Line → Step Task} {found : Node × List Line}
      {stop : Stop} {m : Nat} :
      task.move = .awaits inner next → Runs inner m (.ok found) → next found = .error stop →
      Runs task (m + 1) (.error stop)
  | failed {task inner : Task} {next : Node × List Line → Step Task} {stop : Stop} {m : Nat} :
      task.move = .awaits inner next → Runs inner m (.error stop) → Runs task (m + 1) (.error stop)

namespace Runs

variable {task : Task} {n n' : Nat} {ending ending' : Ending}

/-- A task ends in one way at most. -/
theorem unique (h : Runs task n ending) (h' : Runs task n' ending') :
    n' = n ∧ ending' = ending := by
  induction h generalizing n' ending' with
  | ends move =>
    cases h' with
    | ends move' =>
      cases move.symm.trans move'
      exact ⟨rfl, rfl⟩
    | becomes move' | goesOn move' | refused move' | failed move' =>
      exact nomatch move.symm.trans move'
  | becomes move _ ih =>
    cases h' with
    | becomes move' run =>
      cases move.symm.trans move'
      obtain ⟨rfl, rfl⟩ := ih run
      exact ⟨rfl, rfl⟩
    | ends move' | goesOn move' | refused move' | failed move' =>
      exact nomatch move.symm.trans move'
  | goesOn move _ next _ ih ihLater =>
    cases h' with
    | goesOn move' first next' later =>
      cases move.symm.trans move'
      obtain ⟨rfl, equal⟩ := ih first
      cases equal
      cases next.symm.trans next'
      obtain ⟨rfl, rfl⟩ := ihLater later
      exact ⟨rfl, rfl⟩
    | refused move' first next' =>
      cases move.symm.trans move'
      cases (ih first).2
      exact nomatch next.symm.trans next'
    | failed move' first =>
      cases move.symm.trans move'
      exact nomatch (ih first).2
    | ends move' | becomes move' => exact nomatch move.symm.trans move'
  | refused move _ next ih =>
    cases h' with
    | goesOn move' first next' =>
      cases move.symm.trans move'
      cases (ih first).2
      exact nomatch next.symm.trans next'
    | refused move' first next' =>
      cases move.symm.trans move'
      obtain ⟨rfl, equal⟩ := ih first
      cases equal
      cases next.symm.trans next'
      exact ⟨rfl, rfl⟩
    | failed move' first =>
      cases move.symm.trans move'
      exact nomatch (ih first).2
    | ends move' | becomes move' => exact nomatch move.symm.trans move'
  | failed move _ ih =>
    cases h' with
    | goesOn move' first | refused move' first =>
      cases move.symm.trans move'
      exact nomatch (ih first).2
    | failed move' first =>
      cases move.symm.trans move'
      obtain ⟨rfl, equal⟩ := ih first
      cases equal
      exact ⟨rfl, rfl⟩
    | ends move' | becomes move' => exact nomatch move.symm.trans move'

end Runs

/-! ## The reader makes these moves -/

/-- What the reader makes of a task with a bound. -/
def Task.read (bound : Nat) : Task → Ending
  | block indent depth lines => Yaml.block bound indent depth lines
  | sequence indent depth found lines =>
    (Yaml.sequence bound indent depth lines).map fun (items, rest) => (.arr (found ++ items), rest)
  | mapping indent depth found earlier lines =>
    (Yaml.mapping bound indent depth earlier lines).map fun (entries, rest) =>
      (.obj (found ++ entries), rest)
  | value inline parent line depth lines => nested bound inline parent line depth lines

/-- A move, where tasks are read in a given way. -/
def Move.perform (read : Task → Ending) : Move → Ending
  | ends _ ending => ending
  | becomes task => read task
  | awaits inner next => read inner >>= fun found => next found >>= read

theorem Task.read_block_succ (bound indent depth : Nat) (lines : List Line) :
    (block indent depth lines).read (bound + 1) =
      (block indent depth lines).move.perform (Task.read bound) := by
  cases lines with
  | nil => simp [read, Yaml.block, move, Move.perform]
  | cons line after =>
    rw [read, Yaml.block, move]
    split
    · rfl
    · split <;> rfl

theorem Task.read_value_succ (bound : Nat) (inline : Bytes) (parent line depth : Nat)
    (lines : List Line) :
    (value inline parent line depth lines).read (bound + 1) =
      (value inline parent line depth lines).move.perform (Task.read bound) := by
  rw [read, nested.eq_def]
  cases inline with
  | nil =>
    cases lines with
    | nil => rfl
    | cons next after =>
      simp only [List.head?_nil, move]
      split
      · rfl
      · split <;> rfl
  | cons b text =>
    simp only [List.head?_cons, move]
    split
    · rfl
    · split
      · split
        · simp only [Move.perform, countedFlow_snd]
        · rfl
      · rfl

theorem Task.read_mapping_succ (bound indent depth : Nat) (found : List (Bytes × Node))
    (earlier : KeySet) (lines : List Line) :
    (mapping indent depth found earlier lines).read (bound + 1) =
      (mapping indent depth found earlier lines).move.perform (Task.read bound) := by
  cases lines with
  | nil => simp [read, Yaml.mapping, move, Move.perform, Except.map]
  | cons line after =>
    rw [read, Yaml.mapping, move]
    split
    · simp [Move.perform, Except.map]
    · split
      · rfl
      · split
        · simp [Move.perform, Except.map]
        · cases breakAtKeyColon? .start line.content with
          | none => rfl
          | some cut =>
            obtain ⟨before, inline⟩ := cut
            simp only [Move.perform, read]
            cases nested bound (Bytes.trim inline) indent line.number (depth + 1) after with
            | error => rfl
            | ok got =>
              obtain ⟨item, left⟩ := got
              simp only [bind, Except.bind, afterEntry]
              split
              · rfl
              · simp only [read]
                cases Yaml.mapping bound indent depth (earlier.insert (keyText before)) left with
                | error => rfl
                | ok more => simp [Except.map, pure, Except.pure]

theorem Task.read_sequence_succ (bound indent depth : Nat) (found : List Node)
    (lines : List Line) :
    (sequence indent depth found lines).read (bound + 1) =
      (sequence indent depth found lines).move.perform (Task.read bound) := by
  cases lines with
  | nil => simp [read, Yaml.sequence, move, Move.perform, Except.map]
  | cons line after =>
    have more (item : Node) (left : List Line) :
        ((addItem item (Yaml.sequence bound indent depth left)).map fun (items, rest) =>
          (Node.arr (found ++ items), rest)) =
          (sequence indent depth (found ++ [item]) left).read bound := by
      simp only [read]
      cases Yaml.sequence bound indent depth left with
      | error => rfl
      | ok others => simp [addItem, Except.map]
    rw [read, Yaml.sequence, move.eq_def]
    dsimp only
    split
    · simp [Move.perform, Except.map]
    · simp only [List.isEmpty_iff]
      split
      · cases after with
        | nil => exact more .null []
        | cons below others =>
          simp only [List.head?_cons, Option.map_some, Option.getD_some, decide_eq_true_eq]
          split
          · simp only [Move.perform, read]
            cases Yaml.block bound below.indent (depth + 1) (below :: others) with
            | error => rfl
            | ok got => exact more got.1 got.2
          · exact more .null (below :: others)
      · by_cases opens : opensEntry line.content = true
        · rw [if_pos opens]
          simp only [Move.perform, read]
          refine (congrArg _ (if_pos opens)).trans ?_
          change Except.map _ (Yaml.mapping bound (openedLine indent line).indent (depth + 1) .empty
            (openedLine indent line :: after) >>= _) = _
          cases Yaml.mapping bound (openedLine indent line).indent (depth + 1) .empty
            (openedLine indent line :: after) with
          | error => rfl
          | ok got => exact more (.obj got.1) got.2
        · rw [if_neg opens]
          simp only [Move.perform, read]
          refine (congrArg _ (if_neg opens)).trans ?_
          cases nested bound (afterDash line.content) indent line.number (depth + 1) after with
          | error => rfl
          | ok got => exact more got.1 got.2

/-- The reader with a bound makes the moves of a task, and spends one of the bound on each. -/
theorem Task.read_succ (bound : Nat) : (task : Task) →
    task.read (bound + 1) = task.move.perform (Task.read bound)
  | block indent depth lines => read_block_succ bound indent depth lines
  | sequence indent depth found lines => read_sequence_succ bound indent depth found lines
  | mapping indent depth found earlier lines =>
    read_mapping_succ bound indent depth found earlier lines
  | value inline parent line depth lines => read_value_succ bound inline parent line depth lines

end Yaml

end HeaderForge
