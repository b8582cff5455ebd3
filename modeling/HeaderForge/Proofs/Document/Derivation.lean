import HeaderForge.Proofs.Document.Grammar
/-!
# The reader accepts the grammar

A text is read as a tree exactly where the grammar derives the tree from it and the tree is not
nested too deep. The two directions follow two recursions: what is read is derived by the levels of
nesting that are left, and what is derived is read by the derivation.

1. `derived_of_value` and its companions: a value that is read has a derivation, and the text after
   it is left.
2. `value_of_derived` and its companions: a text that is derived is read in front of anything that
   ends a token.
3. `read_eq_ok_iff` puts them together for a whole text.
-/

namespace HeaderForge

namespace Json

/-! ## Blanks -/

theorem isBlank_iff {b : UInt8} :
    Byte.isBlank b = true ↔ b ∈ [byte ' ', byte '\t', byte '\n', 0x0B, 0x0C, byte '\r'] := by
  simp only [Byte.isBlank, Bool.or_eq_true, Bool.and_eq_true, beq_iff_eq, decide_eq_true_eq,
    List.mem_cons, List.not_mem_nil, or_false, byte, UInt8.le_iff_toNat_le, ← UInt8.toNat_inj]
  simp
  omega

theorem Blanks.isBlank {t : Bytes} (h : Blanks t) : ∀ b, b ∈ t → Byte.isBlank b = true :=
  fun b hb => isBlank_iff.mpr (h b hb)

theorem Blanks.append {t u : Bytes} (first : Blanks t) (second : Blanks u) : Blanks (t ++ u) :=
  fun b hb => (List.mem_append.mp hb).elim (first b) (second b)

theorem skipBlanks_blanks {t : Bytes} (h : Blanks t) (rest : Bytes) :
    skipBlanks (t ++ rest) = skipBlanks rest :=
  List.dropWhile_append_of_pos h.isBlank

theorem exists_skipBlanks (t : Bytes) : ∃ blanks, Blanks blanks ∧ t = blanks ++ skipBlanks t :=
  ⟨t.takeWhile Byte.isBlank,
    fun _ hb => isBlank_iff.mp (List.all_eq_true.mp List.all_takeWhile _ hb),
    List.takeWhile_append_dropWhile.symm⟩

theorem next?_eq_some_iff {b : UInt8} (visible : Byte.isBlank b = false) {t rest : Bytes} :
    next? b t = some rest ↔ ∃ blanks, Blanks blanks ∧ t = blanks ++ b :: rest := by
  constructor
  · intro h
    obtain ⟨blanks, isBlanks, split⟩ := exists_skipBlanks t
    unfold next? at h
    split at h
    · exact nomatch h
    · next c after found =>
      split at h
      · next same =>
        cases h
        exact ⟨blanks, isBlanks, by rw [split, found, beq_iff_eq.mp same]⟩
      · exact nomatch h
  · rintro ⟨blanks, isBlanks, rfl⟩
    simp [next?, skipBlanks_blanks isBlanks, skipBlanks_cons visible]

theorem next?_blanks {b : UInt8} {blanks : Bytes} (h : Blanks blanks) (t : Bytes) :
    next? b (blanks ++ t) = next? b t := by
  rw [next?, next?, skipBlanks_blanks h]

theorem endsToken_blanks {blanks rest : Bytes} (h : Blanks blanks) (ends : EndsToken rest) :
    EndsToken (blanks ++ rest) := by
  cases blanks with
  | nil => exact ends
  | cons b blanks =>
    exact endsToken_cons (by simp [endsToken, h.isBlank b List.mem_cons_self]) _

/-! ## What is read is derived -/

theorem derived_of_token? {word : Bytes} {n : Node} (h : token? word = some n) :
    Value word n ∧ n.depth = 0 := by
  unfold token? at h
  split_ifs at h with yes no nothing number
  · cases h
    exact ⟨yes ▸ .trueWord, by simp [Node.depth]⟩
  · cases h
    exact ⟨no ▸ .falseWord, by simp [Node.depth]⟩
  · cases h
    exact ⟨nothing ▸ .null, by simp [Node.depth]⟩
  · cases h
    exact ⟨.number (Number.isLexeme_iff.mp number), by simp [Node.depth]⟩

theorem literal_of_string {t rest key : Bytes} (h : string t = .ok (key, rest)) :
    ∃ blanks name, Blanks blanks ∧ Literal name key ∧ t = blanks ++ (name ++ rest) := by
  unfold string at h
  split at h
  · next opened found =>
    obtain ⟨blanks, isBlanks, rfl⟩ := (next?_eq_some_iff (by decide)).mp found
    obtain ⟨⟨ps, left⟩, read, equal⟩ := ok_of_map h
    cases equal
    obtain ⟨inner, rfl, content⟩ := pieces_assemble_iff.mp ⟨ps, read, rfl⟩
    exact ⟨blanks, _, isBlanks, .mk content, by simp⟩
  · exact nomatch h

/-- What a reader of values gives: a value after blanks, with fewer levels than allowed. -/
def Derives (levels : Nat) (t : Bytes) (n : Node) (rest : Bytes) : Prop :=
  ∃ blanks word, Blanks blanks ∧ Value word n ∧ t = blanks ++ (word ++ rest) ∧ n.depth < levels

theorem Derives.element {levels : Nat} {t blanks rest : Bytes} {n : Node}
    (h : Derives levels t n (blanks ++ rest)) (after : Blanks blanks) :
    ∃ front, Element front n ∧ t = front ++ rest := by
  obtain ⟨before, word, isBlanks, value, rfl, -⟩ := h
  exact ⟨_, .mk isBlanks value after, by simp⟩

section

variable {levels : Nat}
  (sound : ∀ t n rest, value levels t = .ok (n, rest) → Derives levels t n rest)
include sound

theorem derived_of_items {bound : Nat} {t rest : Bytes} {found : List Node}
    (h : items (value levels) bound t = .ok (found, rest)) :
    ∃ inner, Items inner found ∧ t = inner ++ byte ']' :: rest ∧
      Node.depthOfItems found ≤ levels := by
  induction bound generalizing t found rest with
  | zero => cases h
  | succ bound ih =>
    rw [items] at h
    obtain ⟨⟨item, after⟩, read, h⟩ := ok_of_bind h
    have first := sound t item after read
    obtain ⟨-, -, -, -, -, shallow⟩ := id first
    dsimp only at h
    split at h
    · next left comma =>
      obtain ⟨⟨more, left'⟩, others, h⟩ := ok_of_bind h
      cases h
      obtain ⟨inner, derived, rfl, below⟩ := ih others
      obtain ⟨blanks, isBlanks, rfl⟩ := (next?_eq_some_iff (by decide)).mp comma
      obtain ⟨front, element, rfl⟩ := first.element isBlanks
      refine ⟨_, .more element derived, by simp, ?_⟩
      simp only [Node.depthOfItems]
      omega
    · split at h
      · next left bracket =>
        cases h
        obtain ⟨blanks, isBlanks, rfl⟩ := (next?_eq_some_iff (by decide)).mp bracket
        obtain ⟨front, element, rfl⟩ := first.element isBlanks
        refine ⟨_, .last element, rfl, ?_⟩
        simp only [Node.depthOfItems]
        omega
      · cases h

theorem derived_of_entries {bound : Nat} {earlier : KeySet} {t rest : Bytes}
    {found : List (Bytes × Node)} (h : entries (value levels) bound earlier t = .ok (found, rest)) :
    ∃ inner, Entries inner found ∧ t = inner ++ byte '\x7d' :: rest ∧
      Node.depthOfEntries found ≤ levels := by
  induction bound generalizing earlier t found rest with
  | zero => cases h
  | succ bound ih =>
    rw [entries] at h
    obtain ⟨⟨key, afterKey⟩, named, h⟩ := ok_of_bind h
    obtain ⟨front, name, isFront, literal, text⟩ := literal_of_string named
    dsimp only at h
    split at h
    · cases h
    · next afterColon colon =>
      obtain ⟨back, isBack, rfl⟩ := (next?_eq_some_iff (by decide)).mp colon
      obtain ⟨⟨item, after⟩, read, h⟩ := ok_of_bind h
      have first := sound afterColon item after read
      obtain ⟨-, -, -, -, -, shallow⟩ := id first
      dsimp only at h
      split at h
      · cases h
      · split at h
        · next left comma =>
          obtain ⟨⟨more, left'⟩, others, h⟩ := ok_of_bind h
          cases h
          obtain ⟨inner, derived, rfl, below⟩ := ih others
          obtain ⟨blanks, isBlanks, rfl⟩ := (next?_eq_some_iff (by decide)).mp comma
          obtain ⟨whole, element, rfl⟩ := first.element isBlanks
          refine ⟨_, .more (.mk isFront literal isBack element) derived, by simp [text], ?_⟩
          simp only [Node.depthOfEntries]
          omega
        · split at h
          · next left brace =>
            cases h
            obtain ⟨blanks, isBlanks, rfl⟩ := (next?_eq_some_iff (by decide)).mp brace
            obtain ⟨whole, element, rfl⟩ := first.element isBlanks
            refine ⟨_, .last (.mk isFront literal isBack element), by simp [text], ?_⟩
            simp only [Node.depthOfEntries]
            omega
          · cases h

end

/-- Blanks in front of the first item are part of it. -/
theorem Items.blanks {blanks t : Bytes} {items : List Node} (h : Items t items)
    (isBlanks : Blanks blanks) : Items (blanks ++ t) items := by
  cases h with
  | last element =>
    cases element with
    | mk front value back =>
      rw [← List.append_assoc]
      exact .last (.mk (isBlanks.append front) value back)
  | more element rest =>
    cases element with
    | mk front value back =>
      rw [← List.append_assoc, ← List.append_assoc]
      exact .more (.mk (isBlanks.append front) value back) rest

theorem derived_of_value {levels : Nat} {t rest : Bytes} {n : Node}
    (h : value levels t = .ok (n, rest)) : Derives levels t n rest := by
  induction levels generalizing t n rest with
  | zero => cases h
  | succ levels ih =>
    have sound : ∀ t n rest, value levels t = .ok (n, rest) → Derives levels t n rest :=
      fun t n rest read => ih read
    obtain ⟨blanks, isBlanks, split⟩ := exists_skipBlanks t
    -- The cases are what a value starts with: an object, a list, a string, or a token.
    rw [value] at h
    split at h
    · cases h
    · next b after found =>
      rw [found] at split
      subst split
      split at h
      · next brace =>
        rw [beq_iff_eq.mp brace]
        split at h
        · next left closed =>
          cases h
          obtain ⟨inner, isInner, rfl⟩ := (next?_eq_some_iff (by decide)).mp closed
          exact ⟨blanks, _, isBlanks, .emptyObject isInner, by simp, by simp [Node.depth,
            Node.depthOfEntries]⟩
        · obtain ⟨⟨found, left⟩, read, h⟩ := ok_of_map h
          cases h
          obtain ⟨inner, derived, rfl, shallow⟩ := derived_of_entries sound read
          have distinct := (fresh_of_entries (fun _ _ _ => wellFormed_of_value) read).distinct
          exact ⟨blanks, _, isBlanks, .object derived distinct, by simp,
            Nat.lt_succ_of_le shallow⟩
      · split at h
        · next bracket =>
          rw [beq_iff_eq.mp bracket]
          split at h
          · next left closed =>
            cases h
            obtain ⟨inner, isInner, rfl⟩ := (next?_eq_some_iff (by decide)).mp closed
            exact ⟨blanks, _, isBlanks, .emptyArray isInner, by simp, by simp [Node.depth,
              Node.depthOfItems]⟩
          · obtain ⟨⟨found, left⟩, read, h⟩ := ok_of_map h
            cases h
            obtain ⟨inner, derived, text, shallow⟩ := derived_of_items sound read
            obtain ⟨front, isFront, whole⟩ := exists_skipBlanks after
            rw [text] at whole
            subst whole
            exact ⟨blanks, _, isBlanks, .array (derived.blanks isFront), by simp,
              Nat.lt_succ_of_le shallow⟩
        · split at h
          · next quote =>
            rw [beq_iff_eq.mp quote]
            obtain ⟨⟨ps, left⟩, read, h⟩ := ok_of_map h
            cases h
            obtain ⟨inner, rfl, content⟩ := pieces_assemble_iff.mp ⟨ps, read, rfl⟩
            exact ⟨blanks, _, isBlanks, .string (.mk content), by simp, by simp [Node.depth]⟩
          · split at h
            · next n token =>
              cases h
              obtain ⟨derived, flat⟩ := derived_of_token? token
              exact ⟨blanks, _, isBlanks, derived,
                by rw [List.takeWhile_append_dropWhile], by omega⟩
            · cases h

/-! ## What is derived is read -/

theorem value_blanks {blanks : Bytes} (h : Blanks blanks) (levels : Nat) (t : Bytes) :
    value (levels + 1) (blanks ++ t) = value (levels + 1) t := by
  rw [value, value, skipBlanks_blanks h]

theorem value_skipBlanks (levels : Nat) (t : Bytes) :
    value (levels + 1) (skipBlanks t) = value (levels + 1) t := by
  obtain ⟨blanks, isBlanks, split⟩ := exists_skipBlanks t
  rw [← value_blanks isBlanks, ← split]

theorem string_literal {blanks name key : Bytes} (h : Blanks blanks) (literal : Literal name key)
    (rest : Bytes) : string (blanks ++ (name ++ rest)) = .ok (key, rest) := by
  cases literal with
  | @mk inner _ content =>
    have opened : next? (byte '"') (blanks ++ (byte '"' :: (inner ++ [byte '"']) ++ rest)) =
        some (inner ++ byte '"' :: rest) :=
      (next?_eq_some_iff (by decide)).mpr ⟨blanks, h, by simp⟩
    obtain ⟨ps, read, rfl⟩ :=
      pieces_assemble_iff.mpr ⟨inner, Eq.refl (inner ++ byte '"' :: rest), content⟩
    rw [string, opened]
    simp only [read]
    rfl

theorem opensValue_of_derived {t : Bytes} {n : Node} (h : Value t n) (rest : Bytes) :
    OpensValue (t ++ rest) := by
  cases h with
  | null => exact ⟨byte 'n', _, rfl, by decide, by decide⟩
  | trueWord => exact ⟨byte 't', _, rfl, by decide, by decide⟩
  | falseWord => exact ⟨byte 'f', _, rfl, by decide, by decide⟩
  | number spelled =>
    have wf : (Node.num t).WellFormed := by
      rw [Node.WellFormed]
      exact Number.isLexeme_iff.mpr spelled
    simpa [Node.toJson] using opensValue_toJson wf rest
  | string literal =>
    cases literal
    exact ⟨byte '"', _, rfl, by decide, by decide⟩
  | emptyArray => exact ⟨byte '[', _, rfl, by decide, by decide⟩
  | array => exact ⟨byte '[', _, rfl, by decide, by decide⟩
  | emptyObject => exact ⟨byte '\x7b', _, rfl, by decide, by decide⟩
  | object => exact ⟨byte '\x7b', _, rfl, by decide, by decide⟩

/-- Elements are there, so the array is not closed at once. -/
theorem next?_of_element {t : Bytes} {n : Node} (h : Element t n) (rest : Bytes) :
    next? (byte ']') (t ++ rest) = none := by
  cases h with
  | @mk front inner back _ isFront value isBack =>
    obtain ⟨b, u, opens, visible, open'⟩ := opensValue_of_derived value (back ++ rest)
    have text : front ++ (inner ++ back) ++ rest = front ++ (b :: u) := by
      rw [← opens]
      simp
    rw [text, next?_blanks isFront, next?_other visible open']

theorem next?_of_items {t : Bytes} {found : List Node} (h : Items t found) (rest : Bytes) :
    next? (byte ']') (t ++ rest) = none := by
  cases h with
  | last element => exact next?_of_element element rest
  | more element others =>
    rw [List.append_assoc]
    exact next?_of_element element _

theorem next?_of_entry {t key : Bytes} {n : Node} (h : Entry t key n) (rest : Bytes) :
    next? (byte '\x7d') (t ++ rest) = none := by
  cases h with
  | mk isFront literal isBack element =>
    cases literal
    rw [List.append_assoc, next?_blanks isFront]
    exact next?_other (by decide) (by decide) _

theorem next?_of_entries {t : Bytes} {found : List (Bytes × Node)} (h : Entries t found)
    (rest : Bytes) : next? (byte '\x7d') (t ++ rest) = none := by
  cases h with
  | last entry => exact next?_of_entry entry rest
  | more entry others =>
    rw [List.append_assoc]
    exact next?_of_entry entry _

/-- An item is read, and what stands after it decides whether more are. -/
theorem items_first {read : Bytes → Step (Node × Bytes)} {t after : Bytes} {item : Node}
    (bound : Nat) (h : read t = .ok (item, after)) :
    items read (bound + 1) t =
      match next? (byte ',') after with
      | some t => (items read bound t).map fun (more, t) => (item :: more, t)
      | none =>
        match next? (byte ']') after with
        | some t => .ok ([item], t)
        | none => .error ⟨skipBlanks after, .expectedBracket⟩ := by
  rw [items, h]
  simp only [bind, Except.bind]
  cases next? (byte ',') after with
  | none => cases next? (byte ']') after <;> rfl
  | some t => cases items read bound t <;> rfl

theorem length_items {t : Bytes} {found : List Node} (h : Items t found) :
    found.length ≤ t.length + 1 := by
  induction found generalizing t with
  | nil => simp
  | cons n found ih =>
    cases h with
    | last => simp
    | more element rest =>
      have := ih rest
      simp only [List.length_cons, List.length_append]
      omega

theorem length_entries {t : Bytes} {found : List (Bytes × Node)} (h : Entries t found) :
    found.length ≤ t.length + 1 := by
  induction found generalizing t with
  | nil => simp
  | cons entry found ih =>
    cases h with
    | last => simp
    | more entry rest =>
      have := ih rest
      simp only [List.length_cons, List.length_append]
      omega

theorem value_spelled {t rest : Bytes} (h : Number.Spelled t) (levels : Nat)
    (ends : EndsToken rest) : value (levels + 1) (t ++ rest) = .ok (.num t, rest) :=
  value_number levels (Number.isLexeme_iff.mpr h) ends

theorem value_literal {t v rest : Bytes} (h : Literal t v) (levels : Nat) :
    value (levels + 1) (t ++ rest) = .ok (.str v, rest) := by
  cases h with
  | @mk inner _ content =>
    obtain ⟨ps, read, rfl⟩ :=
      pieces_assemble_iff.mpr ⟨inner, Eq.refl (inner ++ byte '"' :: rest), content⟩
    rw [List.cons_append, List.append_assoc, value, skipBlanks_cons (by decide)]
    simp only [show (byte '"' == byte '\x7b') = false by decide,
      show (byte '"' == byte '[') = false by decide, beq_self_eq_true, if_true, List.cons_append,
      List.nil_append, read]
    rfl

theorem value_emptyArray {blanks : Bytes} (h : Blanks blanks) (levels : Nat) (rest : Bytes) :
    value (levels + 1) (byte '[' :: (blanks ++ byte ']' :: rest)) = .ok (.arr [], rest) := by
  have closed : next? (byte ']') (blanks ++ byte ']' :: rest) = some rest :=
    (next?_eq_some_iff (by decide)).mpr ⟨blanks, h, rfl⟩
  rw [value, skipBlanks_cons (by decide)]
  simp only [show (byte '[' == byte '\x7b') = false by decide, beq_self_eq_true, if_true, closed]
  rfl

theorem value_emptyObject {blanks : Bytes} (h : Blanks blanks) (levels : Nat) (rest : Bytes) :
    value (levels + 1) (byte '\x7b' :: (blanks ++ byte '\x7d' :: rest)) = .ok (.obj [], rest) := by
  have closed : next? (byte '\x7d') (blanks ++ byte '\x7d' :: rest) = some rest :=
    (next?_eq_some_iff (by decide)).mpr ⟨blanks, h, rfl⟩
  rw [value, skipBlanks_cons (by decide)]
  simp only [beq_self_eq_true, if_true, closed]

/-- An array that is not closed at once is read from its first item on, blanks skipped or not. -/
theorem value_items {levels : Nat} {t rest : Bytes} {found : List Node}
    (opened : next? (byte ']') t = none)
    (h : items (value (levels + 1)) (t.length + 1) t = .ok (found, rest)) :
    value (levels + 2) (byte '[' :: t) = .ok (.arr found, rest) := by
  have skipped : items (value (levels + 1)) (t.length + 1) (skipBlanks t) = .ok (found, rest) := by
    rw [items] at h ⊢
    rwa [value_skipBlanks]
  rw [value, skipBlanks_cons (by decide)]
  simp only [show (byte '[' == byte '\x7b') = false by decide, beq_self_eq_true, if_true, opened,
    skipped]
  rfl

/-- Every text that derives the tree is read as it, in front of what ends a token. -/
def ReadsBack (n : Node) : Prop :=
  ∀ (t : Bytes) (levels : Nat) (rest : Bytes), Value t n → n.depth < levels → EndsToken rest →
    value levels (t ++ rest) = .ok (n, rest)

theorem ReadsBack.element {n : Node} (reads : ReadsBack n) {t : Bytes} (h : Element t n)
    {levels : Nat} {rest : Bytes} (shallow : n.depth < levels) (ends : EndsToken rest) :
    ∃ back, Blanks back ∧ value levels (t ++ rest) = .ok (n, back ++ rest) := by
  cases h with
  | @mk front t back _ isFront derived isBack =>
    obtain ⟨levels, rfl⟩ : ∃ below, levels = below + 1 := ⟨levels - 1, by omega⟩
    refine ⟨back, isBack, ?_⟩
    rw [List.append_assoc, List.append_assoc, value_blanks isFront]
    exact reads _ _ _ derived shallow (endsToken_blanks isBack ends)

theorem ReadsBack.entry {n : Node} (reads : ReadsBack n) {t key : Bytes} (h : Entry t key n)
    {levels : Nat} {rest : Bytes} (shallow : n.depth < levels) (ends : EndsToken rest) :
    ∃ u v back, string (t ++ rest) = .ok (key, u) ∧ next? (byte ':') u = some v ∧ Blanks back ∧
      value levels v = .ok (n, back ++ rest) := by
  cases h with
  | @mk front name back t _ _ isFront literal isBack element =>
    obtain ⟨last, isLast, read⟩ := reads.element element shallow ends
    refine ⟨back ++ byte ':' :: (t ++ rest), _, last, ?_,
      (next?_eq_some_iff (by decide)).mpr ⟨back, isBack, rfl⟩, isLast, read⟩
    rw [← string_literal isFront literal]
    simp

mutual

theorem value_of_derived (n : Node) : ReadsBack n := by
  intro t levels rest h shallow ends
  obtain ⟨levels, rfl⟩ : ∃ below, levels = below + 1 := ⟨levels - 1, by omega⟩
  cases n with
  | null =>
    cases h
    exact value_null levels ends
  | bool b =>
    cases h with
    | trueWord => exact value_bool levels true ends
    | falseWord => exact value_bool levels false ends
  | num lexeme =>
    cases h with
    | number spelled => exact value_spelled spelled levels ends
  | str v =>
    cases h with
    | string literal => exact value_literal literal levels
  | arr found =>
    cases h with
    | emptyArray isBlanks => simpa using value_emptyArray isBlanks levels rest
    | @array inner _ derived =>
      obtain ⟨levels, rfl⟩ : ∃ below, levels = below + 1 := by
        have some_level : 1 ≤ levels := by
          cases derived <;> simp [Node.depth, Node.depthOfItems] at shallow <;> omega
        exact ⟨levels - 1, by omega⟩
      have enough : found.length ≤ (inner ++ byte ']' :: rest).length + 1 := by
        have := length_items derived
        simp only [List.length_append, List.length_cons]
        omega
      have read := items_of_derived found derived rest (Nat.le_of_lt_succ shallow) enough
      simpa using value_items (next?_of_items derived _) read
  | obj found =>
    cases h with
    | emptyObject isBlanks => simpa using value_emptyObject isBlanks levels rest
    | @object inner _ derived distinct =>
      have enough : found.length ≤ (inner ++ byte '\x7d' :: rest).length + 1 := by
        have := length_entries derived
        simp only [List.length_append, List.length_cons]
        omega
      have read := entries_of_derived found derived rest distinct
        (fun k _ => KeySet.contains_empty k) (Nat.le_of_lt_succ shallow) enough
      simpa using value_object (next?_of_entries derived _) read

theorem items_of_derived (found : List Node) :
    ∀ {t : Bytes} {levels bound : Nat}, Items t found → ∀ rest : Bytes,
    Node.depthOfItems found ≤ levels → found.length ≤ bound →
    items (value levels) bound (t ++ byte ']' :: rest) = .ok (found, rest) := by
  intro t levels bound h rest shallow enough
  cases found with
  | nil => exact nomatch h
  | cons n more =>
    obtain ⟨bound, rfl⟩ : ∃ below, bound = below + 1 := ⟨bound - 1, by simp at enough; omega⟩
    obtain ⟨here, below⟩ : n.depth < levels ∧ Node.depthOfItems more ≤ levels := by
      simp only [Node.depthOfItems] at shallow
      omega
    cases h with
    | last element =>
      obtain ⟨back, isBack, read⟩ := (value_of_derived n).element element here
        (endsToken_cons (show endsToken (byte ']') = true by decide) rest)
      rw [items_first bound read, next?_blanks isBack, next?_blanks isBack,
        next?_other (by decide) (by decide), next?_self (by decide)]
    | @more first others _ _ element derived =>
      obtain ⟨back, isBack, read⟩ := (value_of_derived n).element element here
        (endsToken_cons (show endsToken (byte ',') = true by decide) (others ++ byte ']' :: rest))
      have later := items_of_derived more derived rest below (Nat.le_of_succ_le_succ enough)
      rw [List.append_assoc, List.cons_append, items_first bound read, next?_blanks isBack,
        next?_self (by decide)]
      simp only [later]
      rfl

theorem entries_of_derived (found : List (Bytes × Node)) :
    ∀ {t : Bytes} {levels bound : Nat} {earlier : KeySet}, Entries t found → ∀ rest : Bytes,
    (found.map Prod.fst).Nodup → (∀ k, k ∈ found.map Prod.fst → earlier.contains k = false) →
    Node.depthOfEntries found ≤ levels → found.length ≤ bound →
    entries (value levels) bound earlier (t ++ byte '\x7d' :: rest) = .ok (found, rest) := by
  intro t levels bound earlier h rest distinct fresh shallow enough
  cases found with
  | nil => exact nomatch h
  | cons entry more =>
    obtain ⟨key, n⟩ := entry
    obtain ⟨bound, rfl⟩ : ∃ below, bound = below + 1 := ⟨bound - 1, by simp at enough; omega⟩
    obtain ⟨here, below⟩ : n.depth < levels ∧ Node.depthOfEntries more ≤ levels := by
      simp only [Node.depthOfEntries] at shallow
      omega
    have unseen := fresh key List.mem_cons_self
    cases h with
    | last entry =>
      obtain ⟨u, v, back, named, colon, isBack, read⟩ := (value_of_derived n).entry entry
        here (endsToken_cons (show endsToken (byte '\x7d') = true by decide) rest)
      rw [entries_first bound named colon read unseen, next?_blanks isBack, next?_blanks isBack,
        next?_other (by decide) (by decide), next?_self (by decide)]
    | @more first others _ _ _ entry derived =>
      obtain ⟨u, v, back, named, colon, isBack, read⟩ := (value_of_derived n).entry entry
        here (endsToken_cons (show endsToken (byte ',') = true by decide)
          (others ++ byte '\x7d' :: rest))
      obtain ⟨new, distinct⟩ := List.nodup_cons.mp distinct
      -- A later key is none of the earlier ones, and not this one.
      have fresher : ∀ k, k ∈ more.map Prod.fst → (earlier.insert key).contains k = false := by
        intro k hk
        have different : k ≠ key := fun equal => new (equal ▸ hk)
        simpa [different] using fresh k (List.mem_cons_of_mem _ hk)
      have later := entries_of_derived more derived rest distinct fresher below
        (Nat.le_of_succ_le_succ enough)
      rw [List.append_assoc, List.cons_append, entries_first bound named colon read unseen,
        next?_blanks isBack, next?_self (by decide)]
      simp only [later]
      rfl

end

/-! ## Texts -/

theorem element_of_read {t : Bytes} {n : Node} (h : read t = .ok n) :
    Element t n ∧ n.depth ≤ maxDepth := by
  obtain ⟨⟨n', rest⟩, found, h⟩ := ok_of_bind (ok_of_mapError h)
  dsimp only at h
  split at h
  · next ended =>
    cases h
    have derived := derived_of_value found
    obtain ⟨-, -, -, -, -, shallow⟩ := id derived
    obtain ⟨blanks, isBlanks, split⟩ := exists_skipBlanks rest
    rw [ended] at split
    subst split
    obtain ⟨front, element, rfl⟩ := derived.element isBlanks
    exact ⟨by simpa using element, Nat.le_of_lt_succ shallow⟩
  · exact nomatch h

theorem read_of_element {t : Bytes} {n : Node} (h : Element t n) (shallow : n.depth ≤ maxDepth) :
    read t = .ok n := by
  obtain ⟨back, isBack, found⟩ :=
    (value_of_derived n).element h (Nat.lt_succ_of_le shallow) endsToken_nil
  have ended : skipBlanks (back ++ []) = [] := by
    rw [skipBlanks_blanks isBack]
    rfl
  rw [List.append_nil] at found
  rw [read, document, found]
  simp only [bind, Except.bind, ended]
  rfl

/-- A text is read as a tree exactly where the grammar derives the tree from it and no value of the
tree lies more than 256 levels below the root. -/
theorem read_eq_ok_iff {t : Bytes} {n : Node} :
    read t = .ok n ↔ Element t n ∧ n.depth ≤ 256 :=
  ⟨element_of_read, fun h => read_of_element h.1 h.2⟩

end Json

end HeaderForge
