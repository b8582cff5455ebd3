import HeaderForge.Document.Reader
import HeaderForge.Proofs.Document.Blocks
import HeaderForge.Proofs.Document.RoundTrip
/-!
# Documents that read are well-formed

Whatever text is given, a tree that comes out of a reader is well-formed: no object has a key twice,
and every number is a lexeme. Both readers refuse a key that came before, by the set of the keys of
the object so far.

1. `Json.wellFormed_of_value` goes by the levels of nesting, and within an object by its entries.
2. `Yaml.wellFormed_of_flow` does so for flow collections, and `Yaml.wellFormed_of_blocks` for the
   four functions of the block reader at once.
-/

namespace HeaderForge

/-- The entries of a well-formed object whose keys are none of the earlier ones. -/
structure FreshEntries (earlier : KeySet) (found : List (Bytes × Node)) : Prop where
  distinct : (found.map Prod.fst).Nodup
  fresh : ∀ e, e ∈ found → earlier.contains e.1 = false
  values : Node.WellFormedEntries found

namespace FreshEntries

theorem nil (earlier : KeySet) : FreshEntries earlier [] :=
  ⟨List.nodup_nil, List.forall_mem_nil _, trivial⟩

theorem cons {earlier : KeySet} {key : Bytes} {item : Node} {more : List (Bytes × Node)}
    (new : earlier.contains key = false) (value : item.WellFormed)
    (rest : FreshEntries (earlier.insert key) more) : FreshEntries earlier ((key, item) :: more) := by
  have others : ∀ e, e ∈ more → e.1 ≠ key ∧ earlier.contains e.1 = false := fun e he => by
    simpa using rest.fresh e he
  refine ⟨List.nodup_cons.mpr ⟨fun again => ?_, rest.distinct⟩, fun e he => ?_, value, rest.values⟩
  · obtain ⟨e, he, same⟩ := List.mem_map.mp again
    exact (others e he).1 same
  · rcases List.mem_cons.mp he with rfl | he
    · exact new
    · exact (others e he).2

theorem object {earlier : KeySet} {found : List (Bytes × Node)} (h : FreshEntries earlier found) :
    (Node.obj found).WellFormed := by
  rw [Node.WellFormed]
  exact ⟨h.distinct, h.values⟩

end FreshEntries

/-! ## JSON -/

namespace Json

theorem wellFormed_of_token? {word : Bytes} {n : Node} (h : token? word = some n) :
    n.WellFormed := by
  unfold token? at h
  repeat' split at h
  all_goals cases h
  all_goals simp only [Node.WellFormed]
  assumption

section

variable {value : Bytes → Step (Node × Bytes)}
  (sound : ∀ t n rest, value t = .ok (n, rest) → n.WellFormed)
include sound

theorem wellFormed_of_items {bound : Nat} {t rest : Bytes} {found : List Node}
    (h : items value bound t = .ok (found, rest)) : Node.WellFormedItems found := by
  induction bound generalizing t found rest with
  | zero => cases h
  | succ bound ih =>
    rw [items] at h
    obtain ⟨⟨item, after⟩, read, h⟩ := ok_of_bind h
    have first : item.WellFormed := sound t item after read
    dsimp only at h
    split at h
    · obtain ⟨⟨more, left⟩, others, h⟩ := ok_of_bind h
      cases h
      exact ⟨first, ih others⟩
    · split at h
      · cases h
        exact ⟨first, trivial⟩
      · cases h

theorem fresh_of_entries {bound : Nat} {earlier : KeySet} {t rest : Bytes}
    {found : List (Bytes × Node)} (h : entries value bound earlier t = .ok (found, rest)) :
    FreshEntries earlier found := by
  induction bound generalizing earlier t found rest with
  | zero => cases h
  | succ bound ih =>
    rw [entries] at h
    obtain ⟨⟨key, afterKey⟩, -, h⟩ := ok_of_bind h
    dsimp only at h
    split at h
    · cases h
    · next afterColon _ =>
      obtain ⟨⟨item, after⟩, read, h⟩ := ok_of_bind h
      have first : item.WellFormed := sound afterColon item after read
      dsimp only at h
      split at h
      · cases h
      -- A key is taken only when it is none of the earlier ones.
      · next new =>
        have new : earlier.contains key = false := by simpa using new
        split at h
        · obtain ⟨⟨more, left⟩, others, h⟩ := ok_of_bind h
          cases h
          exact FreshEntries.cons new first (ih others)
        · split at h
          · cases h
            exact FreshEntries.cons new first (FreshEntries.nil _)
          · cases h

end

theorem wellFormed_of_value {levels : Nat} {t rest : Bytes} {n : Node}
    (h : value levels t = .ok (n, rest)) : n.WellFormed := by
  induction levels generalizing t n rest with
  | zero => cases h
  | succ levels ih =>
    have sound : ∀ t n rest, value levels t = .ok (n, rest) → n.WellFormed :=
      fun t n rest read => ih read
    -- The cases are what a value starts with: an object, a list, a string, or a token.
    rw [value] at h
    split at h
    · cases h
    · split at h
      · split at h
        · cases h
          exact (FreshEntries.nil .empty).object
        · obtain ⟨⟨found, after⟩, read, h⟩ := ok_of_map h
          cases h
          exact (fresh_of_entries sound read).object
      · split at h
        · split at h
          · cases h
            simp only [Node.WellFormed, Node.WellFormedItems]
          · obtain ⟨⟨found, after⟩, read, h⟩ := ok_of_map h
            cases h
            rw [Node.WellFormed]
            exact wellFormed_of_items sound read
        · split at h
          · obtain ⟨⟨found, after⟩, -, h⟩ := ok_of_map h
            cases h
            simp only [Node.WellFormed]
          · split at h
            · next token =>
              cases h
              exact wellFormed_of_token? token
            · cases h

theorem wellFormed_of_read {t : Bytes} {n : Node} (h : read t = .ok n) : n.WellFormed := by
  obtain ⟨⟨n', rest⟩, found, h⟩ := ok_of_bind (ok_of_mapError h)
  dsimp only at h
  split at h
  · cases h
    exact wellFormed_of_value found
  · cases h

end Json

/-! ## YAML -/

namespace Yaml

theorem wellFormed_scalar (t : Bytes) : (scalar t).WellFormed := by
  unfold scalar
  dsimp only
  repeat' split
  all_goals simp only [Node.WellFormed]
  assumption

section

variable {item : Bytes → Step Node} (sound : ∀ t n, item t = .ok n → n.WellFormed)
include sound

theorem wellFormed_of_flowItems {parts : List Bytes} {found : List Node}
    (h : flowItems item parts = .ok found) : Node.WellFormedItems found :=
  Node.wellFormedItems_iff.mpr (all_of_flowItems sound h)

theorem fresh_of_flowEntries {line : Nat} {earlier : KeySet} {parts : List Bytes}
    {found : List (Bytes × Node)} (h : flowEntries line item earlier parts = .ok found) :
    FreshEntries earlier found := by
  induction parts generalizing earlier found with
  | nil =>
    cases h
    exact FreshEntries.nil earlier
  | cons part rest ih =>
    rw [flowEntries] at h
    split at h
    · cases h
    · dsimp only at h
      split at h
      · cases h
      · next new =>
        obtain ⟨first, read, h⟩ := ok_of_bind h
        obtain ⟨others, more, h⟩ := ok_of_bind h
        cases h
        exact FreshEntries.cons (by simpa using new) (sound _ first read) (ih more)

end

theorem wellFormed_of_flow {line levels : Nat} {t : Bytes} {n : Node}
    (h : flow line levels t = .ok n) : n.WellFormed := by
  induction levels generalizing t n with
  | zero => exact nomatch h
  | succ levels ih =>
    have sound : ∀ part n, (if opensFlow part then flow line levels part else .ok (scalar part)) =
        .ok n → n.WellFormed := by
      intro part n read
      split at read
      · exact ih read
      · cases read
        exact wellFormed_scalar part
    rw [flow] at h
    split at h
    · obtain ⟨found, read, rfl⟩ := ok_of_map h
      rw [Node.WellFormed]
      exact wellFormed_of_flowItems sound read
    · obtain ⟨found, read, rfl⟩ := ok_of_map h
      exact (fresh_of_flowEntries sound read).object

/-- What the four functions of the block reader read with a bound is well-formed. -/
structure ReadsWell (bound : Nat) : Prop where
  ofBlock : ∀ indent depth lines n rest, block bound indent depth lines = .ok (n, rest) →
    n.WellFormed
  ofSequence : ∀ indent depth lines found rest,
    sequence bound indent depth lines = .ok (found, rest) → Node.WellFormedItems found
  ofMapping : ∀ indent depth earlier lines found rest,
    mapping bound indent depth earlier lines = .ok (found, rest) → FreshEntries earlier found
  ofNested : ∀ inline parent line depth lines n rest,
    nested bound inline parent line depth lines = .ok (n, rest) → n.WellFormed

section

variable {bound : Nat} (less : ReadsWell bound)
include less

theorem ReadsWell.block_succ {indent depth : Nat} {lines rest : List Line} {n : Node}
    (h : BlockReads bound indent depth lines n rest) : n.WellFormed := by
  cases h with
  | nothing => exact (FreshEntries.nil .empty).object
  | items _ _ read =>
    rw [Node.WellFormed]
    exact less.ofSequence _ _ _ _ _ read
  | entries _ _ read => exact (less.ofMapping _ _ _ _ _ _ read).object

theorem ReadsWell.item {indent depth : Nat} {line : Line} {after left : List Line} {item : Node}
    (h : ItemReads bound indent depth line after item left) : item.WellFormed := by
  cases h with
  | below _ _ read => exact less.ofBlock _ _ _ _ _ read
  | nothing => trivial
  | entry _ read => exact (less.ofMapping _ _ _ _ _ _ read).object
  | value _ _ read => exact less.ofNested _ _ _ _ _ _ _ read

theorem ReadsWell.sequence_succ {indent depth : Nat} {lines rest : List Line} {found : List Node}
    (h : SequenceReads bound indent depth lines found rest) : Node.WellFormedItems found := by
  cases h with
  | ended => trivial
  | item _ _ first more => exact ⟨less.item first, less.ofSequence _ _ _ _ _ more⟩

theorem ReadsWell.mapping_succ {indent depth : Nat} {earlier : KeySet} {lines rest : List Line}
    {found : List (Bytes × Node)} (h : MappingReads bound indent depth earlier lines found rest) :
    FreshEntries earlier found := by
  cases h with
  | ended => exact FreshEntries.nil earlier
  | entry _ _ _ value new more =>
    exact FreshEntries.cons new (less.ofNested _ _ _ _ _ _ _ value)
      (less.ofMapping _ _ _ _ _ _ more)

theorem ReadsWell.nested_succ {inline : Bytes} {parent line depth : Nat} {lines rest : List Line}
    {n : Node} (h : NestedReads bound inline parent line depth lines n rest) : n.WellFormed := by
  cases h with
  | nothing | text => trivial
  | below _ _ read => exact less.ofBlock _ _ _ _ _ read
  | beside _ _ _ read =>
    rw [Node.WellFormed]
    exact less.ofSequence _ _ _ _ _ read
  | flow _ _ read => exact wellFormed_of_flow read
  | scalar => exact wellFormed_scalar inline

end

theorem wellFormed_of_blocks (bound : Nat) : ReadsWell bound := by
  induction bound with
  | zero =>
    refine ⟨?_, ?_, ?_, ?_⟩
    all_goals intros
    all_goals simp only [block, sequence, mapping, nested, reduceCtorEq] at *
  | succ bound less =>
    exact ⟨fun _ _ _ _ _ h => less.block_succ (blockReads_of_block h),
      fun _ _ _ _ _ h => less.sequence_succ (sequenceReads_of_sequence h),
      fun _ _ _ _ _ _ h => less.mapping_succ (mappingReads_of_mapping h),
      fun _ _ _ _ _ _ _ h => less.nested_succ (nestedReads_of_nested h)⟩

theorem wellFormed_of_read {t : Bytes} {n : Node} (h : read t = .ok n) : n.WellFormed := by
  unfold read at h
  split at h
  · cases h
  · have h := ok_of_mapError h
    unfold document at h
    split at h
    · cases h
      simp only [Node.WellFormed]
    · obtain ⟨⟨n', rest⟩, found, h⟩ := ok_of_bind h
      dsimp only at h
      split at h
      · cases h
        exact (wellFormed_of_blocks _).ofBlock _ _ _ _ _ found
      · cases h

end Yaml

/-! ## Documents -/

namespace Document

/-- A document that reads is well-formed, whatever its format. -/
theorem wellFormed_of_read {t : Bytes} {n : Node} (h : read t = .ok n) : n.WellFormed := by
  unfold read at h
  split at h
  · exact Json.wellFormed_of_read h
  · exact Yaml.wellFormed_of_read h

theorem dropEndWhile_append {p : UInt8 → Bool} {last : UInt8} (kept : p last = false)
    (t : Bytes) : dropEndWhile p (t ++ [last]) = t ++ [last] := by
  induction t with
  | nil => simp [dropEndWhile, kept]
  | cons b rest ih =>
    rw [List.cons_append, dropEndWhile, ih]
    cases h : rest ++ [last] with
    | nil => simp at h
    | cons => rfl

theorem toJsonEntries_ends (entries : List (Bytes × Node)) :
    ∃ front, Node.toJsonEntries entries = front ++ [byte '\x7d'] := by
  induction entries with
  | nil => exact ⟨[], rfl⟩
  | cons entry rest ih =>
    obtain ⟨key, value⟩ := entry
    cases rest with
    | nil => exact ⟨Quoted.quote key ++ byte ':' :: value.toJson, by simp [Node.toJsonEntries]⟩
    | cons next rest =>
      obtain ⟨front, ends⟩ := ih
      refine ⟨Quoted.quote key ++ byte ':' :: value.toJson ++ byte ',' :: front, ?_⟩
      rw [Node.toJsonEntries, ends]
      · simp
      · simp

/-- A printed object is taken for JSON and is read as what was printed. -/
theorem read_printed {entries : List (Bytes × Node)} (wf : (Node.obj entries).WellFormed)
    (shallow : (Node.obj entries).depth ≤ Json.maxDepth) :
    read (Node.obj entries).toJson = .ok (.obj entries) := by
  obtain ⟨front, ends⟩ := toJsonEntries_ends entries
  have text : (Node.obj entries).toJson = (byte '\x7b' :: front) ++ [byte '\x7d'] := by
    rw [Node.toJson, ends]
    rfl
  -- The text starts and ends with a brace, so neither a mark nor blanks are dropped.
  have unmarked : dropMark (Node.obj entries).toJson = (Node.obj entries).toJson := by
    rw [text]
    rfl
  have trimmed : Bytes.trim (Node.obj entries).toJson = (Node.obj entries).toJson := by
    rw [text]
    unfold Bytes.trim
    rw [List.cons_append, List.dropWhile_cons_of_neg (by decide), ← List.cons_append]
    exact dropEndWhile_append (by decide) _
  have format : formatOf (Node.obj entries).toJson = .json := by
    unfold formatOf
    rw [unmarked, trimmed, text]
    rfl
  unfold read
  rw [format]
  dsimp only
  rw [unmarked, trimmed, Json.read, Json.document_toJson wf shallow]
  rfl

end Document

end HeaderForge
