import HeaderForge.Document.Yaml
/-!
# What the block reader does

Each function of the block reader takes one of a few ways through its lines. The ways on which it
succeeds are told here once, with what has to hold for each of them and what the next function is
given, so that a fact about all that is read needs no look into the functions: it holds of each way,
given that it holds with a smaller bound.

1. `ok_of_bind`, `ok_of_map` and `ok_of_mapError` take a step that succeeds apart.
2. `all_of_flowItems` and `all_of_flowEntries`: what is read of a flow collection is read of its
   parts.
3. `BlockReads`, `SequenceReads`, `MappingReads` and `NestedReads` are the ways.
-/

namespace HeaderForge

/-! ## Steps that succeed -/

/-- A step that goes on after another one succeeds only if both do. -/
theorem ok_of_bind {ε α β : Type} {x : Except ε α} {f : α → Except ε β} {b : β}
    (h : (x >>= f) = .ok b) : ∃ a, x = .ok a ∧ f a = .ok b := by
  cases x with
  | error e => exact nomatch h
  | ok a => exact ⟨a, rfl, h⟩

theorem ok_of_map {ε α β : Type} {x : Except ε α} {f : α → β} {b : β}
    (h : x.map f = .ok b) : ∃ a, x = .ok a ∧ f a = b := by
  cases x with
  | error e => exact nomatch h
  | ok a =>
    cases h
    exact ⟨a, rfl, rfl⟩

theorem ok_of_mapError {ε ε' α : Type} {x : Except ε α} {f : ε → ε'} {a : α}
    (h : x.mapError f = .ok a) : x = .ok a := by
  cases x with
  | error e => exact nomatch h
  | ok a' =>
    cases h
    rfl

namespace Yaml

/-! ## Flow collections -/

section

variable {item : Bytes → Step Node} {P : Node → Prop} (sound : ∀ part n, item part = .ok n → P n)
include sound

theorem all_of_flowItems {parts : List Bytes} {found : List Node}
    (h : flowItems item parts = .ok found) : ∀ n, n ∈ found → P n := by
  induction parts generalizing found with
  | nil =>
    cases h
    exact List.forall_mem_nil _
  | cons part rest ih =>
    rw [flowItems] at h
    obtain ⟨first, read, h⟩ := ok_of_bind h
    obtain ⟨others, more, h⟩ := ok_of_bind h
    cases h
    exact List.forall_mem_cons.mpr ⟨sound part first read, ih more⟩

theorem all_of_flowEntries {line : Nat} {earlier : KeySet} {parts : List Bytes}
    {found : List (Bytes × Node)} (h : flowEntries line item earlier parts = .ok found) :
    ∀ e, e ∈ found → P e.2 := by
  induction parts generalizing earlier found with
  | nil =>
    cases h
    exact List.forall_mem_nil _
  | cons part rest ih =>
    rw [flowEntries] at h
    split at h
    · exact nomatch h
    · dsimp only at h
      split at h
      · exact nomatch h
      · obtain ⟨first, read, h⟩ := ok_of_bind h
        obtain ⟨others, more, h⟩ := ok_of_bind h
        cases h
        exact List.forall_mem_cons.mpr ⟨sound _ first read, ih more⟩

end

/-! ## Blocks -/

/-- How a block is read. The depth is looked at before anything else. -/
inductive BlockReads (bound indent depth : Nat) : List Line → Node → List Line → Prop
  | nothing : BlockReads bound indent depth [] (.obj []) []
  | items {line : Line} {after rest : List Line} {found : List Node} :
      depth ≤ maxDepth → Line.isDash line.content = true →
      sequence bound indent depth (line :: after) = .ok (found, rest) →
      BlockReads bound indent depth (line :: after) (.arr found) rest
  | entries {line : Line} {after rest : List Line} {found : List (Bytes × Node)} :
      depth ≤ maxDepth → Line.isDash line.content = false →
      mapping bound indent depth .empty (line :: after) = .ok (found, rest) →
      BlockReads bound indent depth (line :: after) (.obj found) rest

theorem blockReads_of_block {bound indent depth : Nat} {lines rest : List Line} {n : Node}
    (h : block (bound + 1) indent depth lines = .ok (n, rest)) :
    BlockReads bound indent depth lines n rest := by
  unfold block at h
  split at h
  · cases h
    exact .nothing
  · split at h
    · cases h
    · next shallow =>
      split at h
      · next dash =>
        obtain ⟨⟨found, left⟩, read, h⟩ := ok_of_map h
        cases h
        exact .items (Nat.le_of_not_gt shallow) dash read
      · next plain =>
        obtain ⟨⟨found, left⟩, read, h⟩ := ok_of_map h
        cases h
        exact .entries (Nat.le_of_not_gt shallow) (Bool.eq_false_iff.mpr plain) read

/-! ## Sequences -/

/-- Whether an item opens an entry on its own line. -/
def opensEntry (content : Bytes) : Bool :=
  !startsValue (afterDash content) && (breakAtKeyColon? .start (afterDash content)).isSome

/-- The line that stands for what follows the dash of an item. -/
def openedLine (indent : Nat) (line : Line) : Line :=
  { line with
    indent := indent + (line.content.length - (afterDash line.content).length)
    content := afterDash line.content }

/-- How an item is read: as the block below its dash, as nothing, as the mapping that it opens, or
as the value on its line. -/
inductive ItemReads (bound indent depth : Nat) (line : Line) : List Line → Node → List Line → Prop
  | below {next : Line} {after left : List Line} {item : Node} :
      afterDash line.content = [] → indent < next.indent →
      block bound next.indent (depth + 1) (next :: after) = .ok (item, left) →
      ItemReads bound indent depth line (next :: after) item left
  | nothing {after : List Line} : afterDash line.content = [] →
      (∀ next, after.head? = some next → next.indent ≤ indent) →
      ItemReads bound indent depth line after .null after
  | entry {after left : List Line} {entries : List (Bytes × Node)} :
      opensEntry line.content = true →
      mapping bound (openedLine indent line).indent (depth + 1) .empty
        (openedLine indent line :: after) = .ok (entries, left) →
      ItemReads bound indent depth line after (.obj entries) left
  | value {after left : List Line} {item : Node} :
      afterDash line.content ≠ [] → opensEntry line.content = false →
      nested bound (afterDash line.content) indent line.number (depth + 1) after =
        .ok (item, left) →
      ItemReads bound indent depth line after item left

/-- How a sequence is read: up to the first line that is no item of it. -/
inductive SequenceReads (bound indent depth : Nat) : List Line → List Node → List Line → Prop
  | ended {lines : List Line} :
      (∀ line, lines.head? = some line →
        line.indent ≠ indent ∨ Line.isDash line.content = false) →
      SequenceReads bound indent depth lines [] lines
  | item {line : Line} {after left rest : List Line} {item : Node} {more : List Node} :
      line.indent = indent → Line.isDash line.content = true →
      ItemReads bound indent depth line after item left →
      sequence bound indent depth left = .ok (more, rest) →
      SequenceReads bound indent depth (line :: after) (item :: more) rest

theorem ok_of_addItem {item : Node} {more : Step (List Node × List Line)} {found : List Node}
    {rest : List Line} (h : addItem item more = .ok (found, rest)) :
    ∃ others, more = .ok (others, rest) ∧ found = item :: others := by
  obtain ⟨⟨others, left⟩, read, h⟩ := ok_of_map h
  cases h
  exact ⟨others, read, rfl⟩

theorem sequenceReads_of_sequence {bound indent depth : Nat} {lines rest : List Line}
    {found : List Node} (h : sequence (bound + 1) indent depth lines = .ok (found, rest)) :
    SequenceReads bound indent depth lines found rest := by
  unfold sequence at h
  split at h
  · cases h
    exact .ended fun _ first => by cases first
  · next line after =>
    split at h
    · next other =>
      cases h
      refine .ended fun _ first => ?_
      cases first
      simpa using other
    · next here =>
      obtain ⟨column, dash⟩ : line.indent = indent ∧ Line.isDash line.content = true := by
        simpa using here
      dsimp only at h
      split at h
      · next empty =>
        have empty := List.isEmpty_iff.mp empty
        cases after with
        | nil =>
          obtain ⟨others, read, rfl⟩ := ok_of_addItem h
          exact .item column dash (.nothing empty fun _ first => by cases first) read
        | cons next after =>
          split at h
          · next deeper =>
            obtain ⟨⟨item, left⟩, below, h⟩ := ok_of_bind h
            obtain ⟨others, read, rfl⟩ := ok_of_addItem h
            exact .item column dash (.below empty (of_decide_eq_true deeper) below) read
          · next level =>
            obtain ⟨others, read, rfl⟩ := ok_of_addItem h
            refine .item column dash (.nothing empty fun _ first => ?_) read
            cases first
            exact Nat.le_of_not_gt fun deeper => level (decide_eq_true deeper)
      · next some_byte =>
        split at h
        · next opens =>
          obtain ⟨⟨entries, left⟩, opened, h⟩ := ok_of_bind h
          obtain ⟨others, read, rfl⟩ := ok_of_addItem h
          exact .item column dash (.entry opens opened) read
        · next value =>
          obtain ⟨⟨item, left⟩, inner, h⟩ := ok_of_bind h
          obtain ⟨others, read, rfl⟩ := ok_of_addItem h
          have visible : afterDash line.content ≠ [] := fun empty =>
            some_byte (List.isEmpty_iff.mpr empty)
          exact .item column dash (.value visible (Bool.eq_false_iff.mpr value) inner) read

/-! ## Mappings -/

/-- How a mapping is read: up to a line that is indented less or is an item. -/
inductive MappingReads (bound indent depth : Nat) (earlier : KeySet) :
    List Line → List (Bytes × Node) → List Line → Prop
  | ended {lines : List Line} :
      (∀ line, lines.head? = some line →
        line.indent < indent ∨ line.indent = indent ∧ Line.isDash line.content = true) →
      MappingReads bound indent depth earlier lines [] lines
  | entry {line : Line} {after left rest : List Line} {before inline : Bytes} {item : Node}
      {more : List (Bytes × Node)} :
      line.indent = indent → Line.isDash line.content = false →
      breakAtKeyColon? .start line.content = some (before, inline) →
      nested bound (Bytes.trim inline) indent line.number (depth + 1) after = .ok (item, left) →
      earlier.contains (keyText before) = false →
      mapping bound indent depth (earlier.insert (keyText before)) left = .ok (more, rest) →
      MappingReads bound indent depth earlier (line :: after) ((keyText before, item) :: more) rest

theorem mappingReads_of_mapping {bound indent depth : Nat} {earlier : KeySet}
    {lines rest : List Line} {found : List (Bytes × Node)}
    (h : mapping (bound + 1) indent depth earlier lines = .ok (found, rest)) :
    MappingReads bound indent depth earlier lines found rest := by
  unfold mapping at h
  split at h
  · cases h
    exact .ended fun _ first => by cases first
  · next line after =>
    split at h
    · next less =>
      cases h
      refine .ended fun _ first => ?_
      cases first
      exact .inl less
    · next enough =>
      split at h
      · cases h
      · next noMore =>
        have column : line.indent = indent :=
          Nat.le_antisymm (Nat.le_of_not_gt noMore) (Nat.le_of_not_gt enough)
        split at h
        · next dash =>
          cases h
          refine .ended fun _ first => ?_
          cases first
          exact .inr ⟨column, dash⟩
        · next plain =>
          split at h
          · cases h
          · next before inline colon =>
            obtain ⟨⟨item, left⟩, inner, h⟩ := ok_of_bind h
            dsimp only at h
            split at h
            · cases h
            -- All that is left is an entry, whose key was looked for among the earlier ones.
            · next new =>
              obtain ⟨⟨more, left'⟩, read, h⟩ := ok_of_bind h
              cases h
              exact .entry column (Bool.eq_false_iff.mpr plain) colon inner
                (Bool.eq_false_iff.mpr new) read

/-! ## Values -/

/-- How a value is read: where nothing stands on its line, as the block below it or as the sequence
at its indentation; otherwise as a block scalar, a flow collection or a scalar. -/
inductive NestedReads (bound : Nat) (inline : Bytes) (parent line depth : Nat) :
    List Line → Node → List Line → Prop
  | nothing {lines : List Line} : inline = [] →
      (∀ next, lines.head? = some next →
        next.indent < parent ∨ next.indent = parent ∧ Line.isDash next.content = false) →
      NestedReads bound inline parent line depth lines .null lines
  | below {next : Line} {after rest : List Line} {n : Node} : inline = [] → parent < next.indent →
      block bound next.indent depth (next :: after) = .ok (n, rest) →
      NestedReads bound inline parent line depth (next :: after) n rest
  | beside {next : Line} {after rest : List Line} {items : List Node} : inline = [] →
      next.indent = parent → Line.isDash next.content = true →
      sequence bound parent depth (next :: after) = .ok (items, rest) →
      NestedReads bound inline parent line depth (next :: after) (.arr items) rest
  | text {lines : List Line} :
      inline.head? = some (byte '|') ∨ inline.head? = some (byte '>') →
      NestedReads bound inline parent line depth lines
        (.str (blockText inline (lines.takeWhile fun next => decide (next.indent > parent))))
        (lines.dropWhile fun next => decide (next.indent > parent))
  | flow {lines : List Line} {n : Node} : opensFlow inline = true →
      inline.getLast? = some (closing inline) →
      flow line (maxDepth + 1 - depth) inline = .ok n →
      NestedReads bound inline parent line depth lines n lines
  | scalar {lines : List Line} : inline ≠ [] → opensFlow inline = false →
      NestedReads bound inline parent line depth lines (scalar inline) lines

theorem nestedReads_of_nested {bound : Nat} {inline : Bytes} {parent line depth : Nat}
    {lines rest : List Line} {n : Node}
    (h : nested (bound + 1) inline parent line depth lines = .ok (n, rest)) :
    NestedReads bound inline parent line depth lines n rest := by
  unfold nested at h
  split at h
  · next none =>
    have empty := List.head?_eq_none_iff.mp none
    split at h
    · cases h
      exact .nothing empty fun _ first => by cases first
    · next next after =>
      split at h
      · next deeper => exact .below empty deeper h
      · next notDeeper =>
        split at h
        · next beside =>
          obtain ⟨column, dash⟩ : next.indent = parent ∧ Line.isDash next.content = true := by
            simpa using beside
          obtain ⟨⟨items, left⟩, read, h⟩ := ok_of_map h
          cases h
          exact .beside empty column dash read
        · next other =>
          cases h
          refine .nothing empty fun _ first => ?_
          cases first
          rcases Nat.lt_or_eq_of_le (Nat.le_of_not_gt notDeeper) with less | column
          · exact .inl less
          · exact .inr ⟨column, by simpa [column] using other⟩
  · next first some =>
    split at h
    · next bar =>
      cases h
      refine .text ?_
      simpa [some] using bar
    · split at h
      · next opens =>
        split at h
        · next closes =>
          obtain ⟨n', read, h⟩ := ok_of_map h
          cases h
          exact .flow opens closes read
        · cases h
      · next plain =>
        cases h
        refine .scalar ?_ (Bool.eq_false_iff.mpr plain)
        rintro rfl
        cases some

end Yaml

end HeaderForge
