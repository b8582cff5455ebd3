import HeaderForge.Cache.Record
import HeaderForge.Proofs.Bytes.Entries
import HeaderForge.Proofs.Document.RoundTrip
/-!
# Records are read back

A record is printed over several lines, which the reader of JSON passes over. So what one run saves
is what the next one loads, as long as the entries are in order and none of the hashes is empty.

1. `Json.string_append` and `Json.value_append` pass over the blanks in front of a text.
2. `CacheRecord.wellFormed_of_read` is what every record that is read satisfies.
3. `CacheRecord.read_text` reads a record back.
-/

namespace HeaderForge

namespace Json

/-! ## Blanks -/

section

variable {blanks : Bytes} (all : blanks.all Byte.isBlank = true)

include all

theorem skipBlanks_append (t : Bytes) : skipBlanks (blanks ++ t) = skipBlanks t :=
  List.dropWhile_append_of_pos (List.all_eq_true.mp all)

theorem next?_append (b : UInt8) (t : Bytes) : next? b (blanks ++ t) = next? b t := by
  rw [next?, skipBlanks_append all, next?]

theorem string_append (t : Bytes) : string (blanks ++ t) = string t := by
  rw [string, next?_append all, skipBlanks_append all, string]

theorem value_append (levels : Nat) (t : Bytes) :
    value (levels + 1) (blanks ++ t) = value (levels + 1) t := by
  rw [value, skipBlanks_append all, value]

end

end Json

namespace CacheRecord

open Json

/-! ## Records that are read -/

/-- Whether the entries of a record are in order, and none of its hashes is empty. -/
structure WellFormed (r : CacheRecord) : Prop where
  order : KeysInOrder r.hashes
  proper : ∀ entry, entry ∈ r.hashes → entry.2 ≠ []

theorem wellFormed_of_hashesOf {entries : List (Bytes × Node)} {hashes : List (Bytes × Bytes)}
    (h : hashesOf entries = some hashes) (style : Bytes) : WellFormed ⟨style, hashes⟩ := by
  induction entries generalizing hashes with
  | nil =>
    cases h
    exact ⟨List.Pairwise.nil, List.forall_mem_nil _⟩
  | cons entry rest ih =>
    unfold hashesOf at h
    split at h
    · next equal => exact nomatch equal
    · next name hash _ equal =>
      cases equal
      split at h
      · exact nomatch h
      · next proper =>
        obtain ⟨others, found, rfl⟩ := Option.map_eq_some_iff.mp h
        refine ⟨(ih found).order.put name hash, fun entry member => ?_⟩
        rcases mem_of_mem_putSorted member with rfl | member
        · exact fun empty => proper (List.isEmpty_iff.mpr empty)
        · exact (ih found).proper entry member
    · exact nomatch h

theorem wellFormed_of_read {text : Bytes} {r : CacheRecord} (h : read text = some r) :
    r.WellFormed := by
  obtain ⟨n, _, h⟩ := Option.bind_eq_some_iff.mp h
  obtain ⟨style, _, h⟩ := Option.bind_eq_some_iff.mp h
  obtain ⟨schemas, _, h⟩ := Option.bind_eq_some_iff.mp h
  obtain ⟨entries, _, h⟩ := Option.bind_eq_some_iff.mp h
  obtain ⟨hashes, found, h⟩ := Option.bind_eq_some_iff.mp h
  cases h
  exact wellFormed_of_hashesOf found style

/-! ## Records that are printed -/

/-- The entries of a record as a document has them. -/
def nodes (hashes : List (Bytes × Bytes)) : List (Bytes × Node) :=
  hashes.map fun entry => (entry.1, .str entry.2)

theorem hashesOf_nodes {hashes : List (Bytes × Bytes)} (order : KeysInOrder hashes)
    (proper : ∀ entry, entry ∈ hashes → entry.2 ≠ []) : hashesOf (nodes hashes) = some hashes := by
  induction hashes with
  | nil => rfl
  | cons entry rest ih =>
    obtain ⟨name, hash⟩ := entry
    obtain ⟨least, order⟩ := keysInOrder_cons.mp order
    obtain ⟨filled, proper⟩ := List.forall_mem_cons.mp proper
    have others := ih order proper
    unfold nodes at others ⊢
    rw [List.map_cons, hashesOf, if_neg (by simpa using filled), others, Option.map_some,
      putSorted_of_least least]

/-- A line of a record is read up to what follows it. -/
theorem entries_line {name : Bytes} {earlier : KeySet} (levels bound : Nat) (hash after : Bytes)
    (new : earlier.contains name = false) :
    entries (value (levels + 1)) (bound + 1) earlier
        (bytes "\n" ++ entryText (name, hash) ++ after) =
      match next? (byte ',') after with
      | some t =>
        (entries (value (levels + 1)) bound (earlier.insert name) t).map fun (more, t) =>
          ((name, .str hash) :: more, t)
      | none =>
        match next? (byte '\x7d') after with
        | some t => .ok ([(name, .str hash)], t)
        | none => .error ⟨skipBlanks after, .expectedBrace⟩ := by
  have text : bytes "\n" ++ entryText (name, hash) ++ after =
      bytes "\n    " ++ (Quoted.quote name ++ byte ':' :: (bytes " " ++
        (Quoted.quote hash ++ after))) := by
    simp [entryText, row, bytes, byte]
  rw [text]
  exact entries_first bound ((string_append (by decide) _).trans (string_quote name _))
    (next?_self (by decide) _)
    ((value_append (by decide) levels _).trans (value_string levels hash _)) new

/-- The entries of a record are read back, line by line. -/
theorem entries_text {hashes : List (Bytes × Bytes)} (levels : Nat) (rest : Bytes) :
    ∀ {bound : Nat} {earlier : KeySet}, hashes ≠ [] → (hashes.map Prod.fst).Nodup →
    (∀ key, key ∈ hashes.map Prod.fst → earlier.contains key = false) → hashes.length ≤ bound →
    entries (value (levels + 1)) bound earlier
      (bytes "\n" ++ (Bytes.join ",\n" (hashes.map entryText) ++ (bytes "\n  \x7d" ++ rest))) =
        .ok (nodes hashes, rest) := by
  induction hashes with
  | nil => exact fun filled => absurd rfl filled
  | cons entry more ih =>
    intro bound earlier _ distinct fresh enough
    obtain ⟨name, hash⟩ := entry
    obtain ⟨bound, rfl⟩ : ∃ below, bound = below + 1 := ⟨bound - 1, by simp at enough; omega⟩
    obtain ⟨apart, distinct⟩ := List.nodup_cons.mp distinct
    have new := fresh name List.mem_cons_self
    cases more with
    | nil =>
      have close : bytes "\n  \x7d" ++ rest = bytes "\n  " ++ byte '\x7d' :: rest := rfl
      rw [List.map_cons, List.map_nil, Bytes.join, ← List.append_assoc, entries_line _ _ _ _ new,
        close, next?_append (by decide), next?_append (by decide),
        next?_other (by decide) (by decide), next?_self (by decide)]
      rfl
    | cons next more =>
      -- A later name is none of the earlier ones, and not this one.
      have fresher : ∀ key, key ∈ (next :: more).map Prod.fst →
          (earlier.insert name).contains key = false := by
        intro key member
        have different : key ≠ name := fun equal => apart (equal ▸ member)
        simpa [different] using fresh key (List.mem_cons_of_mem _ member)
      have others := ih (List.cons_ne_nil next more) distinct fresher
        (Nat.le_of_succ_le_succ enough)
      have text : bytes "\n" ++ (Bytes.join ",\n" (((name, hash) :: next :: more).map entryText) ++
          (bytes "\n  \x7d" ++ rest)) = bytes "\n" ++ entryText (name, hash) ++ byte ',' ::
            (bytes "\n" ++ (Bytes.join ",\n" ((next :: more).map entryText) ++
              (bytes "\n  \x7d" ++ rest))) := by
        simp [Bytes.join, bytes, byte]
      rw [text, entries_line _ _ _ _ new, next?_self (by decide)]
      dsimp only
      rw [others]
      rfl

/-- Every line takes a byte at least, so the length of the text bounds their number. -/
theorem length_join (hashes : List (Bytes × Bytes)) :
    hashes.length ≤ (Bytes.join ",\n" (hashes.map entryText)).length := by
  induction hashes with
  | nil => exact Nat.zero_le _
  | cons entry rest ih =>
    cases rest <;> simp [Bytes.join, entryText, row, bytes] at *
    omega

/-- What is printed after the opening brace of the entries, up to the closing one. -/
def entriesText (hashes : List (Bytes × Bytes)) : Bytes :=
  if hashes.isEmpty then bytes "\x7d"
  else bytes "\n" ++ (Bytes.join ",\n" (hashes.map entryText) ++ bytes "\n  \x7d")

theorem value_entriesText {hashes : List (Bytes × Bytes)} (distinct : (hashes.map Prod.fst).Nodup)
    (levels : Nat) (rest : Bytes) :
    value (levels + 2) (byte '\x7b' :: (entriesText hashes ++ rest)) =
      .ok (.obj (nodes hashes), rest) := by
  cases hashes with
  | nil => rfl
  | cons entry more =>
    have length := length_join (entry :: more)
    have text : entriesText (entry :: more) ++ rest = bytes "\n" ++
        (Bytes.join ",\n" ((entry :: more).map entryText) ++ (bytes "\n  \x7d" ++ rest)) := by
      simp [entriesText]
    rw [text]
    refine value_object ?_ (entries_text levels rest (List.cons_ne_nil _ _) distinct
      (fun key _ => KeySet.contains_empty key) ?_)
    · obtain ⟨u, opens⟩ : ∃ u, bytes "\n" ++ (Bytes.join ",\n" ((entry :: more).map entryText) ++
          (bytes "\n  \x7d" ++ rest)) = bytes "\n    " ++ byte '"' :: u := by
        cases more <;> exact ⟨_, rfl⟩
      rw [opens, next?_append (by decide)]
      exact next?_other (by decide) (by decide) u
    · simp at *
      omega

theorem text_eq (r : CacheRecord) :
    r.text = byte '\x7b' :: (bytes "\n  " ++ (Quoted.quote (bytes "backend") ++ byte ':' ::
      (bytes " " ++ (Quoted.quote r.style ++ byte ',' :: (bytes "\n  " ++
        (Quoted.quote (bytes "schemas") ++ byte ':' :: (bytes " " ++ (byte '\x7b' ::
          (entriesText r.hashes ++ bytes "\n\x7d\n"))))))))) := by
  have opening : bytes "\x7b\n  \"backend\": " = byte '\x7b' :: (bytes "\n  " ++
      (Quoted.quote (bytes "backend") ++ byte ':' :: bytes " ")) := by decide
  have next : bytes ",\n  \"schemas\": \x7b" = byte ',' :: (bytes "\n  " ++
      (Quoted.quote (bytes "schemas") ++ byte ':' :: (bytes " " ++ [byte '\x7b']))) := by decide
  have empty : bytes "\x7d\n" ++ bytes "\x7d\n" = bytes "\x7d" ++ bytes "\n\x7d\n" := by decide
  have last : bytes "\n  \x7d\n" ++ bytes "\x7d\n" = bytes "\n  \x7d" ++ bytes "\n\x7d\n" := by
    decide
  unfold text entriesText
  rw [opening, next]
  split <;> simp [row, empty, last]

theorem value_text {r : CacheRecord} (order : KeysInOrder r.hashes) (levels : Nat) :
    value (levels + 3) r.text =
      .ok (.obj [(bytes "backend", .str r.style), (bytes "schemas", .obj (nodes r.hashes))],
        bytes "\n") := by
  have inner := value_entriesText order.nodup levels (bytes "\n\x7d\n")
  have fresh : (KeySet.empty.insert (bytes "backend")).contains (bytes "schemas") = false := by
    decide
  have second : ∀ bound, 0 < bound → entries (value (levels + 2)) bound
      (KeySet.empty.insert (bytes "backend")) (bytes "\n  " ++ (Quoted.quote (bytes "schemas") ++
        byte ':' :: (bytes " " ++ (byte '\x7b' :: (entriesText r.hashes ++ bytes "\n\x7d\n"))))) =
          .ok ([(bytes "schemas", .obj (nodes r.hashes))], bytes "\n") := by
    intro bound positive
    obtain ⟨bound, rfl⟩ := Nat.exists_eq_add_of_lt positive
    rw [Nat.zero_add]
    exact entries_first bound
      ((string_append (by decide) _).trans (string_quote (bytes "schemas") _))
      (next?_self (by decide) _) ((value_append (by decide) _ _).trans inner) fresh
  rw [text_eq]
  refine value_object ?_ ?_
  · rw [next?_append (by decide)]
    exact next?_other (by decide) (by decide) _
  · rw [entries_first _ ((string_append (by decide) _).trans (string_quote (bytes "backend") _))
      (next?_self (by decide) _) ((value_append (by decide) _ _).trans (value_string _ r.style _))
      (KeySet.contains_empty _), next?_self (by decide)]
    dsimp only
    rw [second _ (by simp [bytes])]
    rfl

/-- A record is read back from its text. -/
theorem read_text {r : CacheRecord} (wf : r.WellFormed) : read r.text = some r := by
  have whole : document r.text = .ok (.obj [(bytes "backend", .str r.style),
      (bytes "schemas", .obj (nodes r.hashes))]) := by
    rw [document, show maxDepth + 1 = 254 + 3 from rfl, value_text wf.order]
    rfl
  have hashes := hashesOf_nodes wf.order wf.proper
  rw [read, Json.read, whole]
  show (hashesOf (nodes r.hashes)).bind (fun hashes => some ⟨r.style, hashes⟩) = some r
  rw [hashes]
  rfl

end CacheRecord

end HeaderForge
