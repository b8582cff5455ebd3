import HeaderForge.Proofs.Document.Derivation
import HeaderForge.Proofs.Document.Parts
/-!
# How deep documents nest

Every reader counts the levels as it goes down. The JSON reader looks at the count for each value,
the YAML reader on entering an indented block and a flow collection. It does not do so where an item
opens an entry on its own line, nor where a sequence stands at the indentation of its key. So the
lines that take these ways are what the depth of a YAML document is bounded by.

1. `Node.Within` bounds the levels of the collections of a tree.
2. `Yaml.within_of_blocks` does so for the four functions of the block reader at once.
3. `level_le_of_reads` is what holds of a whole document.
4. `Yaml.read_ladder` reads documents of which each line adds two levels, so no number bounds the
   levels of all documents.
-/

namespace HeaderForge

namespace Node

/-- Arrays and objects. -/
def IsCollection : Node → Prop
  | arr _ | obj _ => True
  | _ => False

/-- The collections of a tree that lies at a depth lie at a limit at most. -/
def Within (limit depth : Nat) (n : Node) : Prop :=
  ∀ level m, n.Part level m → m.IsCollection → depth + level ≤ limit

namespace Within

variable {limit depth : Nat}

theorem of_scalar {n : Node} (scalar : ¬ n.IsCollection) : n.Within limit depth := by
  intro level m part collection
  cases part with
  | self => exact absurd collection scalar
  | item => exact absurd trivial scalar
  | entry => exact absurd trivial scalar

theorem array {items : List Node} (here : depth ≤ limit)
    (below : ∀ item, item ∈ items → item.Within limit (depth + 1)) :
    (arr items).Within limit depth := by
  intro level m part collection
  cases part with
  | self => exact here
  | item member part =>
    have bound := below _ member _ m part collection
    omega

theorem object {entries : List (Bytes × Node)} (here : depth ≤ limit)
    (below : ∀ e, e ∈ entries → e.2.Within limit (depth + 1)) :
    (obj entries).Within limit depth := by
  intro level m part collection
  cases part with
  | self => exact here
  | entry member part =>
    have bound := below _ member _ m part collection
    omega

end Within

end Node

namespace Yaml

/-! ## Flow collections -/

theorem scalar_isScalar (t : Bytes) : ¬ (scalar t).IsCollection := by
  unfold scalar
  dsimp only
  repeat' split
  all_goals exact id

theorem within_of_flow {line levels limit depth : Nat} {t : Bytes} {n : Node}
    (room : depth + levels ≤ limit + 1) (h : flow line levels t = .ok n) :
    n.Within limit depth := by
  induction levels generalizing depth t n with
  | zero => exact nomatch h
  | succ levels ih =>
    have sound : ∀ part n, (if opensFlow part then flow line levels part else .ok (scalar part)) =
        .ok n → n.Within limit (depth + 1) := by
      intro part n read
      split at read
      · exact ih (by omega) read
      · cases read
        exact .of_scalar (scalar_isScalar part)
    have here : depth ≤ limit := by omega
    rw [flow] at h
    split at h
    · obtain ⟨found, read, rfl⟩ := ok_of_map h
      exact .array here (all_of_flowItems sound read)
    · obtain ⟨found, read, rfl⟩ := ok_of_map h
      exact .object here (all_of_flowEntries sound read)

/-- A flow collection may take the levels that are left, and none where none are left. -/
theorem within_of_levels {line limit depth : Nat} {t : Bytes} {n : Node} (room : maxDepth ≤ limit)
    (h : flow line (maxDepth + 1 - depth) t = .ok n) : n.Within limit depth := by
  by_cases shallow : depth ≤ maxDepth
  · exact within_of_flow (by omega) h
  · rw [show maxDepth + 1 - depth = 0 by omega] at h
    exact nomatch h

/-! ## Levels that are not checked -/

/-- The number of items that open an entry. -/
def entryItems (lines : List Line) : Nat :=
  lines.countP fun line => Line.isDash line.content && opensEntry line.content

/-- The levels that lines add at most without a look at the depth: one for a sequence at the
indentation of its key, and two for each item that opens an entry, whose value may be a sequence
again. -/
def unchecked (lines : List Line) : Nat :=
  if lines.any fun line => Line.isDash line.content then 2 * entryItems lines + 1 else 0

theorem entryItems_cons_of_opensEntry {line : Line} (dash : Line.isDash line.content = true)
    (opens : opensEntry line.content = true) (after : List Line) :
    entryItems (line :: after) = entryItems after + 1 :=
  List.countP_cons_of_pos (by simp [dash, opens])

theorem entryItems_cons_of_not_isDash {line : Line} (h : Line.isDash line.content = false)
    (after : List Line) : entryItems (line :: after) = entryItems after :=
  List.countP_cons_of_neg (by simp [h])

theorem unchecked_le (lines : List Line) : unchecked lines ≤ 2 * entryItems lines + 1 := by
  unfold unchecked
  split <;> omega

theorem entryItems_le (lines : List Line) : 2 * entryItems lines ≤ unchecked lines := by
  unfold unchecked
  split
  · exact Nat.le_succ _
  · next dashless =>
    have none : entryItems lines = 0 := List.countP_eq_zero.mpr fun line member opens =>
      dashless (List.any_eq_true.mpr ⟨line, member, (Bool.and_eq_true_iff.mp opens).1⟩)
    omega

theorem unchecked_cons_of_isDash {line : Line} (h : Line.isDash line.content = true)
    (after : List Line) : unchecked (line :: after) = 2 * entryItems (line :: after) + 1 := by
  rw [unchecked, List.any_cons, h]
  rfl

theorem unchecked_of_sublist {some all : List Line} (h : some.Sublist all) :
    unchecked some ≤ unchecked all := by
  have fewer : entryItems some ≤ entryItems all := h.countP_le
  unfold unchecked
  split
  · next dash =>
    obtain ⟨line, member, isDash⟩ := List.any_eq_true.mp dash
    rw [if_pos (List.any_eq_true.mpr ⟨line, h.subset member, isDash⟩)]
    omega
  · exact Nat.zero_le _

theorem unchecked_tail (line : Line) (after : List Line) :
    unchecked after ≤ unchecked (line :: after) :=
  unchecked_of_sublist (List.sublist_cons_self line after)

/-- What follows the dash of an item in place of its line adds no more than the line. -/
theorem unchecked_opened {line : Line} (dash : Line.isDash line.content = true)
    (opens : opensEntry line.content = true) (opened : Line) (after : List Line) :
    unchecked (opened :: after) ≤ unchecked (line :: after) := by
  have one : entryItems (opened :: after) ≤ entryItems after + 1 := by
    rw [entryItems, List.countP_cons]
    split
    · exact Nat.le_refl _
    · exact Nat.le_succ _
  have bound := unchecked_le (opened :: after)
  rw [unchecked_cons_of_isDash dash, entryItems_cons_of_opensEntry dash opens]
  omega

/-! ## Blocks -/

/-- What the four functions of the block reader read with a bound lies within a limit, and the lines
they leave add no more levels than the lines they are given. -/
structure ReadsWithin (limit bound : Nat) : Prop where
  ofBlock : ∀ indent depth lines n rest, block bound indent depth lines = .ok (n, rest) →
    lines ≠ [] → maxDepth + unchecked lines ≤ limit →
    n.Within limit depth ∧ unchecked rest ≤ unchecked lines
  ofSequence : ∀ indent depth lines found rest,
    sequence bound indent depth lines = .ok (found, rest) → maxDepth + unchecked lines ≤ limit →
    depth + 2 * entryItems lines ≤ limit →
    (∀ item, item ∈ found → item.Within limit (depth + 1)) ∧ unchecked rest ≤ unchecked lines
  ofMapping : ∀ indent depth earlier lines found rest,
    mapping bound indent depth earlier lines = .ok (found, rest) →
    maxDepth + unchecked lines ≤ limit → depth + unchecked lines ≤ limit →
    (∀ e, e ∈ found → e.2.Within limit (depth + 1)) ∧ unchecked rest ≤ unchecked lines
  ofNested : ∀ inline parent line depth lines n rest,
    nested bound inline parent line depth lines = .ok (n, rest) →
    maxDepth + unchecked lines ≤ limit → (inline = [] → depth + unchecked lines ≤ limit + 1) →
    n.Within limit depth ∧ unchecked rest ≤ unchecked lines

/-- What follows a dash may be an item again: then nothing is read from it. -/
theorem mapping_of_isDash {bound depth : Nat} {earlier : KeySet} {line : Line}
    {after rest : List Line} {found : List (Bytes × Node)}
    (h : mapping bound line.indent depth earlier (line :: after) = .ok (found, rest))
    (dash : Line.isDash line.content = true) : found = [] ∧ rest = line :: after := by
  cases bound with
  | zero => simp only [mapping, reduceCtorEq] at h
  | succ bound =>
    cases mappingReads_of_mapping h with
    | ended => exact ⟨rfl, rfl⟩
    | entry _ plain => exact absurd dash (Bool.eq_false_iff.mp plain)

section

variable {limit bound : Nat} (less : ReadsWithin limit bound)
include less

theorem ReadsWithin.block_succ {indent depth : Nat} {lines rest : List Line} {n : Node}
    (h : BlockReads bound indent depth lines n rest) (some_line : lines ≠ [])
    (room : maxDepth + unchecked lines ≤ limit) :
    n.Within limit depth ∧ unchecked rest ≤ unchecked lines := by
  cases h with
  | nothing => exact absurd rfl some_line
  | @items line after _ _ shallow _ read =>
    have counted := entryItems_le (line :: after)
    obtain ⟨below, fewer⟩ := less.ofSequence _ _ _ _ _ read room (by omega)
    exact ⟨.array (by omega) below, fewer⟩
  | entries shallow _ read =>
    obtain ⟨below, fewer⟩ := less.ofMapping _ _ _ _ _ _ read room (by omega)
    exact ⟨.object (by omega) below, fewer⟩

/-- The mapping of an item that opens an entry: its line is one of those that count, and what is put
in its place counts again only if nothing is read from it. -/
theorem ReadsWithin.opened {indent depth : Nat} {line : Line} {after rest : List Line}
    {entries : List (Bytes × Node)} (isItem : Line.isDash line.content = true)
    (opens : opensEntry line.content = true) (room : maxDepth + unchecked (line :: after) ≤ limit)
    (inner : depth + 2 * entryItems (line :: after) ≤ limit)
    (h : mapping bound (openedLine indent line).indent (depth + 1) .empty
      (openedLine indent line :: after) = .ok (entries, rest)) :
    (Node.obj entries).Within limit (depth + 1) ∧ unchecked rest ≤ unchecked (line :: after) := by
  have fewer := unchecked_opened isItem opens (openedLine indent line) after
  rw [entryItems_cons_of_opensEntry isItem opens] at inner
  have here : depth + 1 ≤ limit := by omega
  cases dash : Line.isDash (openedLine indent line).content with
  | true =>
    obtain ⟨rfl, rfl⟩ := mapping_of_isDash h dash
    exact ⟨.object here (List.forall_mem_nil _), fewer⟩
  | false =>
    have counted := unchecked_le (openedLine indent line :: after)
    rw [entryItems_cons_of_not_isDash dash] at counted
    obtain ⟨below, fewer'⟩ := less.ofMapping _ _ _ _ _ _ h (by omega) (by omega)
    exact ⟨.object here below, Nat.le_trans fewer' fewer⟩

theorem ReadsWithin.item {indent depth : Nat} {line : Line} {after left : List Line} {item : Node}
    (h : ItemReads bound indent depth line after item left)
    (isItem : Line.isDash line.content = true) (room : maxDepth + unchecked (line :: after) ≤ limit)
    (inner : depth + 2 * entryItems (line :: after) ≤ limit) :
    item.Within limit (depth + 1) ∧ unchecked left ≤ unchecked (line :: after) := by
  have tail := unchecked_tail line after
  have room' : maxDepth + unchecked after ≤ limit := by omega
  cases h with
  | below _ _ read =>
    obtain ⟨first, fewer⟩ := less.ofBlock _ _ _ _ _ read (List.cons_ne_nil _ _) room'
    exact ⟨first, Nat.le_trans fewer tail⟩
  | nothing => exact ⟨.of_scalar id, tail⟩
  | entry opens read => exact less.opened isItem opens room inner read
  | value visible _ read =>
    obtain ⟨first, fewer⟩ := less.ofNested _ _ _ _ _ _ _ read room' fun empty =>
      absurd empty visible
    exact ⟨first, Nat.le_trans fewer tail⟩

theorem ReadsWithin.sequence_succ {indent depth : Nat} {lines rest : List Line} {found : List Node}
    (h : SequenceReads bound indent depth lines found rest)
    (room : maxDepth + unchecked lines ≤ limit) (inner : depth + 2 * entryItems lines ≤ limit) :
    (∀ item, item ∈ found → item.Within limit (depth + 1)) ∧
      unchecked rest ≤ unchecked lines := by
  cases h with
  | ended => exact ⟨List.forall_mem_nil _, Nat.le_refl _⟩
  | @item line after left _ _ _ _ dash first more =>
    obtain ⟨first, fewer⟩ := less.item first dash room inner
    have counted := entryItems_le left
    have counted' := unchecked_le (line :: after)
    obtain ⟨others, fewer'⟩ := less.ofSequence _ _ _ _ _ more (by omega) (by omega)
    exact ⟨List.forall_mem_cons.mpr ⟨first, others⟩, Nat.le_trans fewer' fewer⟩

theorem ReadsWithin.mapping_succ {indent depth : Nat} {earlier : KeySet} {lines rest : List Line}
    {found : List (Bytes × Node)} (h : MappingReads bound indent depth earlier lines found rest)
    (room : maxDepth + unchecked lines ≤ limit) (inner : depth + unchecked lines ≤ limit) :
    (∀ e, e ∈ found → e.2.Within limit (depth + 1)) ∧ unchecked rest ≤ unchecked lines := by
  cases h with
  | ended => exact ⟨List.forall_mem_nil _, Nat.le_refl _⟩
  | @entry line after _ _ _ _ _ _ _ _ _ value _ more =>
    have tail := unchecked_tail line after
    obtain ⟨first, fewer⟩ := less.ofNested _ _ _ _ _ _ _ value (by omega) fun _ => by omega
    obtain ⟨others, fewer'⟩ := less.ofMapping _ _ _ _ _ _ more (by omega) (by omega)
    exact ⟨List.forall_mem_cons.mpr ⟨first, others⟩, Nat.le_trans fewer' (Nat.le_trans fewer tail)⟩

theorem ReadsWithin.nested_succ {inline : Bytes} {parent line depth : Nat} {lines rest : List Line}
    {n : Node} (h : NestedReads bound inline parent line depth lines n rest)
    (room : maxDepth + unchecked lines ≤ limit)
    (below : inline = [] → depth + unchecked lines ≤ limit + 1) :
    n.Within limit depth ∧ unchecked rest ≤ unchecked lines := by
  cases h with
  | nothing => exact ⟨.of_scalar id, Nat.le_refl _⟩
  | below _ _ read => exact less.ofBlock _ _ _ _ _ read (List.cons_ne_nil _ _) room
  | beside empty _ dash read =>
    -- Nothing looks at the depth here, so the first item has to account for the sequence.
    have beside := below empty
    rw [unchecked_cons_of_isDash dash] at beside
    obtain ⟨inner, fewer⟩ := less.ofSequence _ _ _ _ _ read room (by omega)
    exact ⟨.array (by omega) inner, fewer⟩
  | text => exact ⟨.of_scalar id, unchecked_of_sublist (List.dropWhile_sublist _)⟩
  | flow _ _ read => exact ⟨within_of_levels (Nat.le_of_add_right_le room) read, Nat.le_refl _⟩
  | scalar => exact ⟨.of_scalar (scalar_isScalar inline), Nat.le_refl _⟩

end

theorem within_of_blocks (limit bound : Nat) : ReadsWithin limit bound := by
  induction bound with
  | zero =>
    refine ⟨?_, ?_, ?_, ?_⟩
    all_goals intros
    all_goals simp only [block, sequence, mapping, nested, reduceCtorEq] at *
  | succ bound less =>
    exact ⟨fun _ _ _ _ _ h => less.block_succ (blockReads_of_block h),
      fun _ _ _ _ _ h => less.sequence_succ (sequenceReads_of_sequence h),
      fun _ _ _ _ _ _ h => less.mapping_succ (mappingReads_of_mapping h),
      fun _ _ _ _ _ _ _ h => less.nested_succ (nestedReads_of_nested h)⟩

/-- The collections of a document lie no deeper than what is checked and what is not. -/
theorem within_of_read {t : Bytes} {n : Node} (h : read t = .ok n) :
    n.Within (maxDepth + unchecked (Line.ofText t)) 0 := by
  unfold read at h
  split at h
  · cases h
  · next lines some_line =>
    have h := ok_of_mapError h
    unfold document at h
    split at h
    · next empty => exact absurd empty some_line
    · next first after _ =>
      obtain ⟨⟨n', rest⟩, found, h⟩ := ok_of_bind h
      dsimp only at h
      split at h
      · cases h
        exact ((within_of_blocks _ _).ofBlock _ _ _ _ _ found some_line (Nat.le_refl _)).1
      · cases h

end Yaml

/-- No array or object of a document lies more levels below the root than the reader allows, apart
from those that a YAML document opens where the depth is not looked at. A YAML document without
items has none of these. -/
theorem level_le_of_reads {t : Bytes} {n m : Node} {level : Nat} (part : n.Part level m)
    (collection : m.IsCollection) :
    (Json.read t = .ok n → level ≤ Json.maxDepth) ∧
      (Yaml.read t = .ok n → level ≤ Yaml.maxDepth + Yaml.unchecked (Yaml.Line.ofText t)) := by
  refine ⟨fun json => ?_, fun yaml => ?_⟩
  · exact Nat.le_trans part.level_le_depth (Json.element_of_read json).2
  · have bound := Yaml.within_of_read yaml level m part collection
    rwa [Nat.zero_add] at bound

/-! ## Ladders -/

namespace Yaml

/-- A tree of so many arrays, each with an object as its item, whose entry holds the next array. -/
def rungs : Nat → Node
  | 0 => .null
  | k + 1 => .arr [.obj [(bytes "k", rungs k)]]

/-- An item that opens an entry, at the column where the one above it has its key. -/
def rung (i : Nat) : Line := ⟨2 * i, bytes "- k:", bytes "- k:", i + 2⟩

def rungLines : (i : Nat) → Nat → List Line
  | _, 0 => []
  | i, k + 1 => rung i :: rungLines (i + 1) k

def rungText : (i : Nat) → Nat → Bytes
  | _, 0 => []
  | i, k + 1 =>
    List.replicate (2 * i) (byte ' ') ++ bytes "- k:" ++ byte '\n' :: rungText (i + 1) k

/-- A document of which each line but the first goes down two levels. -/
def ladder (k : Nat) : Bytes := bytes "k:" ++ byte '\n' :: rungText 0 k

theorem ofPiece?_rung (i : Nat) :
    Line.ofPiece? (i + 2) (List.replicate (2 * i) (byte ' ') ++ bytes "- k:") = some (rung i) := by
  have carriage : Line.dropCarriageReturn (List.replicate (2 * i) (byte ' ') ++ bytes "- k:") =
      List.replicate (2 * i) (byte ' ') ++ bytes "- k:" := by
    simp [Line.dropCarriageReturn, bytes, byte]
  have indent : (List.replicate (2 * i) (byte ' ') ++ bytes "- k:").takeWhile (· == byte ' ') =
      List.replicate (2 * i) (byte ' ') := by
    rw [List.takeWhile_append_of_pos (by simp)]
    exact List.append_nil _
  rw [Line.ofPiece?]
  simp only [carriage, indent, List.length_replicate, List.drop_left']
  rfl

theorem ofPieces_rungText (i k : Nat) :
    Line.ofPieces (i + 2) (Bytes.splitAll (byte '\n') (rungText i k)) = rungLines i k := by
  induction k generalizing i with
  | zero => rfl
  | succ k ih =>
    have feed : byte '\n' ∉ List.replicate (2 * i) (byte ' ') ++ bytes "- k:" := by
      simp [bytes, byte]
    rw [rungText, Bytes.splitAll_append, Bytes.splitAll_of_not_mem feed, List.singleton_append,
      Line.ofPieces, ofPiece?_rung]
    exact congrArg _ (ih (i + 1))

theorem ofText_ladder (k : Nat) :
    Line.ofText (ladder k) = ⟨0, bytes "k:", bytes "k:", 1⟩ :: rungLines 0 k := by
  rw [Line.ofText, ladder, Bytes.splitAll_append]
  exact congrArg _ (ofPieces_rungText 0 k)

theorem nested_null {inline : Bytes} (empty : inline = []) (bound parent line depth : Nat) :
    nested (bound + 1) inline parent line depth [] = .ok (.null, []) := by
  subst empty
  rw [nested]
  rfl

/-- A sequence at the indentation of its key, whatever the depth is. -/
theorem nested_beside (next : Line) {inline : Bytes} {bound parent line depth : Nat}
    {after rest : List Line} {items : List Node} (empty : inline = [])
    (beside : next.indent = parent) (dash : Line.isDash next.content = true)
    (h : sequence bound parent depth (next :: after) = .ok (items, rest)) :
    nested (bound + 1) inline parent line depth (next :: after) = .ok (.arr items, rest) := by
  subst empty beside
  rw [nested.eq_def]
  simp only [List.head?_nil, Nat.lt_irrefl, if_false, gt_iff_lt, beq_self_eq_true, dash,
    Bool.and_self, if_true, h]
  rfl

/-- An item that opens an entry and that nothing follows. -/
theorem sequence_opened (line : Line) {bound depth : Nat} {after : List Line}
    {entries : List (Bytes × Node)} (dash : Line.isDash line.content = true)
    (opens : opensEntry line.content = true)
    (h : mapping (bound + 1) (openedLine line.indent line).indent (depth + 1) .empty
      (openedLine line.indent line :: after) = .ok (entries, [])) :
    sequence (bound + 2) line.indent depth (line :: after) = .ok ([.obj entries], []) := by
  have some_byte : (afterDash line.content).isEmpty = false := by
    cases equal : afterDash line.content with
    | nil => simp [opensEntry, equal, breakAtKeyColon?] at opens
    | cons => rfl
  unfold openedLine at h
  unfold opensEntry at opens
  rw [sequence]
  simp only [dash, bne_self_eq_false, Bool.not_true, Bool.or_self, Bool.false_eq_true, if_false,
    some_byte, opens, if_true, h, bind, Except.bind]
  rw [sequence]
  rfl

/-- The mapping that a rung opens holds all rungs below it. -/
theorem mapping_rungs (k : Nat) : ∀ (i depth bound number : Nat) (raw : Bytes), 3 * k + 3 ≤ bound →
    mapping bound (2 * i) depth .empty (⟨2 * i, bytes "k:", raw, number⟩ :: rungLines i k) =
      .ok ([(bytes "k", rungs k)], []) := by
  -- A rung spends three steps of the bound: its mapping, the value of its key, and the sequence.
  induction k with
  | zero =>
    intro i depth bound number raw enough
    obtain ⟨bound, rfl⟩ : ∃ below, bound = below + 3 := ⟨bound - 3, by omega⟩
    have colon : breakAtKeyColon? .start (bytes "k:") = some (bytes "k", []) := rfl
    exact mapping_last ⟨2 * i, bytes "k:", raw, number⟩ rfl colon
      (nested_null rfl _ _ _ _)
  | succ k ih =>
    intro i depth bound number raw enough
    obtain ⟨bound, rfl⟩ : ∃ below, bound = below + 4 := ⟨bound - 4, by omega⟩
    have colon : breakAtKeyColon? .start (bytes "k:") = some (bytes "k", []) := rfl
    have below := ih (i + 1) (depth + 2) (bound + 1) (i + 2) (bytes "- k:") (by omega)
    have item : sequence (bound + 2) (2 * i) (depth + 1) (rungLines i (k + 1)) =
        .ok ([.obj [(bytes "k", rungs k)]], []) :=
      sequence_opened (rung i) rfl rfl below
    exact mapping_last ⟨2 * i, bytes "k:", raw, number⟩ rfl colon
      (nested_beside (rung i) rfl rfl rfl item)

theorem weight_rungLines (i k : Nat) : 3 * k + 4 ≤ weight (rungLines i k) := by
  induction k generalizing i with
  | zero => exact Nat.le_refl _
  | succ k ih =>
    have below := ih (i + 1)
    have here : weight (rungLines i (k + 1)) = 20 + weight (rungLines (i + 1) k) := by
      simp [weight, rungLines, rung, bytes, Nat.add_assoc]
    omega

/-- Every line of a ladder is read, however many there are. -/
theorem read_ladder (k : Nat) : read (ladder k) = .ok (.obj [(bytes "k", rungs k)]) := by
  refine read_mapping (ofText_ladder k) rfl (mapping_rungs k 0 0 _ 1 (bytes "k:") ?_)
  have enough := weight_rungLines 0 k
  simp only [weight, List.map_cons, List.foldr_cons] at *
  omega

theorem part_rungs (k j : Nat) : (rungs (k + j)).Part (2 * j) (rungs k) := by
  induction j with
  | zero => exact .self _
  | succ j ih => exact .item List.mem_cons_self (.entry List.mem_cons_self ih)

/-- The last array of a ladder. -/
theorem part_ladder (k : Nat) :
    (Node.obj [(bytes "k", rungs (1 + k))]).Part (2 * k + 1) (rungs 1) :=
  .entry List.mem_cons_self (part_rungs 1 k)

theorem exists_level_gt (limit : Nat) :
    ∃ t n m level, read t = .ok n ∧ n.Part level m ∧ m.IsCollection ∧ limit < level :=
  ⟨ladder (1 + limit), _, rungs 1, 2 * limit + 1, read_ladder _, part_ladder limit, trivial, by
    omega⟩

end Yaml

theorem level_le_of_reads_exLadder :
    Yaml.read (Yaml.ladder 2) = .ok (.obj [(bytes "k", Yaml.rungs 2)]) ∧
      3 ≤ Yaml.maxDepth + Yaml.unchecked (Yaml.Line.ofText (Yaml.ladder 2)) ∧
      Json.read (bytes "[[]]") = .ok (.arr [.arr []]) ∧ 1 ≤ Json.maxDepth := by
  have json : Json.read (bytes "[[]]") = .ok (.arr [.arr []]) := rfl
  have part : (Node.arr [.arr []]).Part 1 (.arr []) := .item List.mem_cons_self (.self _)
  exact ⟨Yaml.read_ladder 2,
    (level_le_of_reads (Yaml.part_ladder 1) trivial).2 (Yaml.read_ladder 2),
    json, (level_le_of_reads part trivial).1 json⟩

/-- The last of 129 rungs puts an array one level too deep. -/
theorem not_levelsBounded :
    ¬ ∀ (t : Bytes) (n m : Node) (level : Nat), Json.read t = .ok n ∨ Yaml.read t = .ok n →
      n.Part level m → m.IsCollection → level ≤ Yaml.maxDepth := by
  intro bounded
  have low := bounded (Yaml.ladder 129) _ _ _ (.inr (Yaml.read_ladder 129)) (Yaml.part_ladder 128)
    trivial
  exact absurd low (by decide)

end HeaderForge
