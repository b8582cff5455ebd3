import HeaderForge.Document.Json
import HeaderForge.Document.Printer
import HeaderForge.Proofs.Document.WellFormed
/-!
# Printed documents are read back

The reader undoes the printer: every escape, every number and every bracket that is printed is read
back as what it was printed for, and what follows a value is left for the next step. So a printed
tree is read as itself as long as it is not nested deeper than the reader allows.

1. `pieces_escape` reads a string back, byte by byte.
2. `value_toJson` reads a value back in front of any text that ends a token.
3. `read_toJson` reads a whole document back.
-/

namespace HeaderForge

namespace Json

/-! ## Strings -/

theorem pieces_quote (t : Bytes) : pieces (byte '"' :: t) = .ok ([], t) := by
  rw [pieces.eq_def]
  simp

theorem pieces_plain {b : UInt8} (quote : b ≠ byte '"') (backslash : b ≠ byte '\\') (t : Bytes) :
    pieces (b :: t) = Piece.before (.byte b) (pieces t) := by
  rw [pieces.eq_def]
  simp [quote, backslash]

theorem pieces_letter {letter c : UInt8} (h : escaped? letter = some c) (t : Bytes) :
    pieces (byte '\\' :: letter :: t) = Piece.before (.byte c) (pieces t) := by
  have known : letter ≠ byte 'u' := by
    rintro rfl
    simp [escaped?, byte] at h
  rw [pieces.eq_def]
  simp [known, h, show byte '\\' ≠ byte '"' by decide]

theorem pieces_unit {d₃ d₂ d₁ d₀ : UInt8} {code : Nat} (h : Quoted.hex4? d₃ d₂ d₁ d₀ = some code)
    (t : Bytes) :
    pieces (byte '\\' :: byte 'u' :: d₃ :: d₂ :: d₁ :: d₀ :: t) =
      Piece.before (.unit code) (pieces t) := by
  rw [pieces.eq_def]
  simp [h, show byte '\\' ≠ byte '"' by decide]

/-- How a byte of a string is read back: control bytes are named by their code. -/
def pieceOf (b : UInt8) : Piece :=
  if b < 0x20 && b != byte '\n' && b != byte '\r' && b != byte '\t' then .unit b.toNat else .byte b

theorem hexValue?_hexDigit : ∀ n : Fin 16, Byte.hexValue? (Byte.hexDigit n) = some n.val := by
  decide

theorem hex4?_hexText (b : UInt8) :
    Quoted.hex4? (byte '0') (byte '0') (Byte.hexDigit (b.toNat / 16 % 16))
      (Byte.hexDigit (b.toNat % 16)) = some b.toNat := by
  have high := hexValue?_hexDigit ⟨b.toNat / 16 % 16, Nat.mod_lt _ (by decide)⟩
  have low := hexValue?_hexDigit ⟨b.toNat % 16, Nat.mod_lt _ (by decide)⟩
  have zero : Byte.hexValue? (byte '0') = some 0 := by decide
  have bound := b.toNat_lt
  simp only [Quoted.hex4?, zero, high, low, Option.some.injEq]
  omega

/-- Reading the escape of a byte gives the byte back. -/
theorem pieces_escapeByte (b : UInt8) (t : Bytes) :
    pieces (Quoted.escapeByte b ++ t) = Piece.before (pieceOf b) (pieces t) := by
  -- First the bytes with an escape of two letters, then the other control characters.
  by_cases backslash : b = byte '\\'
  · subst backslash
    exact pieces_letter rfl t
  by_cases quote : b = byte '"'
  · subst quote
    exact pieces_letter rfl t
  by_cases feed : b = byte '\n'
  · subst feed
    exact pieces_letter rfl t
  by_cases carriage : b = byte '\r'
  · subst carriage
    exact pieces_letter rfl t
  by_cases tab : b = byte '\t'
  · subst tab
    exact pieces_letter rfl t
  by_cases control : b < 0x20
  · have escaped : Quoted.escapeByte b =
        bytes "\\u00" ++ [Byte.hexDigit (b.toNat / 16 % 16), Byte.hexDigit (b.toNat % 16)] := by
      simp [Quoted.escapeByte, backslash, quote, feed, carriage, tab, control, hexText]
    have piece : pieceOf b = .unit b.toNat := by simp [pieceOf, feed, carriage, tab, control]
    rw [escaped, piece]
    exact pieces_unit (hex4?_hexText b) t
  · have escaped : Quoted.escapeByte b = [b] := by
      simp [Quoted.escapeByte, backslash, quote, feed, carriage, tab, control]
    have piece : pieceOf b = .byte b := by simp [pieceOf, control]
    rw [escaped, piece]
    exact pieces_plain quote backslash t

/-- The pieces of an escaped string, up to its closing quote. -/
theorem pieces_escape (t rest : Bytes) :
    pieces (Quoted.escape t ++ byte '"' :: rest) = .ok (t.map pieceOf, rest) := by
  induction t with
  | nil => exact pieces_quote rest
  | cons b t ih =>
    have front : Quoted.escape (b :: t) ++ byte '"' :: rest =
        Quoted.escapeByte b ++ (Quoted.escape t ++ byte '"' :: rest) := by
      simp [Quoted.escape]
    rw [front, pieces_escapeByte, ih]
    rfl

/-- Units below 0x20 are no surrogates, so each is assembled alone. -/
theorem assemble_pieceOf (b : UInt8) (rest : List Piece) :
    assemble (pieceOf b :: rest) = b :: assemble rest := by
  unfold pieceOf
  split
  · next control =>
    have small : b.toNat < 0x20 := by
      simp only [Bool.and_eq_true, decide_eq_true_eq, UInt8.lt_iff_toNat_lt] at control
      exact control.1.1.1
    have alone : Quoted.utf8 b.toNat = [b] := by
      simp only [Quoted.utf8, show b.toNat < 0x80 by omega, if_true]
      simp
    have low : Quoted.isHighSurrogate b.toNat = false := by
      simp [Quoted.isHighSurrogate]
      omega
    cases rest with
    | nil => simp [assemble, alone]
    | cons next rest => cases next <;> simp [assemble, alone, low]
  · rfl

theorem assemble_map_pieceOf (t : Bytes) : assemble (t.map pieceOf) = t := by
  induction t with
  | nil => rfl
  | cons b t ih => rw [List.map_cons, assemble_pieceOf, ih]

theorem string_quote (t rest : Bytes) :
    string (Quoted.quote t ++ rest) = .ok (t, rest) := by
  have opened : next? (byte '"') (Quoted.quote t ++ rest) =
      some (Quoted.escape t ++ byte '"' :: rest) := by
    simp [next?, skipBlanks, Quoted.quote, Byte.isBlank, byte]
  rw [string, opened]
  simp only [pieces_escape]
  simp [Except.map, assemble_map_pieceOf]

/-! ## Tokens -/

/-- A text that a bare word in front of it does not run into. -/
def EndsToken (rest : Bytes) : Prop := ∀ b t, rest = b :: t → endsToken b = true

theorem endsToken_nil : EndsToken [] := fun _ _ h => nomatch h

theorem endsToken_cons {b : UInt8} (h : endsToken b = true) (t : Bytes) : EndsToken (b :: t) := by
  intro c u equal
  cases equal
  exact h

theorem skipBlanks_cons {b : UInt8} (h : Byte.isBlank b = false) (t : Bytes) :
    skipBlanks (b :: t) = b :: t := by
  simp [skipBlanks, h]

theorem next?_self {b : UInt8} (h : Byte.isBlank b = false) (t : Bytes) :
    next? b (b :: t) = some t := by
  simp [next?, skipBlanks_cons h]

theorem next?_other {b c : UInt8} (h : Byte.isBlank c = false) (other : c ≠ b) (t : Bytes) :
    next? b (c :: t) = none := by
  simp [next?, skipBlanks_cons h, other]

/-- What a value may start with: no blank, and no bracket that closes. -/
def OpensValue (t : Bytes) : Prop :=
  ∃ b rest, t = b :: rest ∧ Byte.isBlank b = false ∧ b ≠ byte ']'

/-- Whether no byte of a text ends a token. -/
def isInner (word : Bytes) : Bool := word.all fun c => !endsToken c

theorem takeWhile_word {word rest : Bytes} (inner : isInner word = true) (ends : EndsToken rest) :
    (word ++ rest).takeWhile (fun c => !endsToken c) = word ∧
      (word ++ rest).dropWhile (fun c => !endsToken c) = rest := by
  have all : ∀ b, b ∈ word → (!endsToken b) = true := List.all_eq_true.mp inner
  have stop : rest.takeWhile (fun c => !endsToken c) = [] ∧
      rest.dropWhile (fun c => !endsToken c) = rest := by
    cases rest with
    | nil => exact ⟨rfl, rfl⟩
    | cons b t => simp [ends b t rfl]
  rw [List.takeWhile_append_of_pos all, List.dropWhile_append_of_pos all, stop.1, stop.2]
  exact ⟨List.append_nil word, rfl⟩

/-- A bare word is read as what it spells. -/
theorem value_word {b : UInt8} {word rest : Bytes} {n : Node} (levels : Nat)
    (inner : isInner (b :: word) = true) (ends : EndsToken rest)
    (bare : b ≠ byte '\x7b' ∧ b ≠ byte '[' ∧ b ≠ byte '"') (spelled : token? (b :: word) = some n) :
    value (levels + 1) (b :: word ++ rest) = .ok (n, rest) := by
  have blank : Byte.isBlank b = false := by
    have h := List.all_eq_true.mp inner b List.mem_cons_self
    simp only [endsToken, Bool.not_eq_true', Bool.or_eq_false_iff] at h
    exact h.2
  obtain ⟨taken, dropped⟩ := takeWhile_word inner ends
  rw [List.cons_append] at taken dropped ⊢
  rw [value, skipBlanks_cons blank]
  simp only [beq_iff_eq, bare.1, bare.2.1, bare.2.2, if_false, taken, dropped, spelled]

theorem not_endsToken_of_isNumberByte {b : UInt8} (h : Number.isNumberByte b = true) :
    endsToken b = false := by
  simp [Number.isNumberByte, Byte.isDigit, endsToken, Byte.isBlank, byte, UInt8.le_iff_toNat_le,
    ← UInt8.toNat_inj] at *
  omega

theorem bare_of_number {b : UInt8} (h : Byte.isDigit b = true ∨ b = byte '-') :
    b ≠ byte '\x7b' ∧ b ≠ byte '[' ∧ b ≠ byte '"' ∧ b ≠ byte 't' ∧ b ≠ byte 'f' ∧ b ≠ byte 'n' := by
  simp [Byte.isDigit, byte, UInt8.le_iff_toNat_le, ← UInt8.toNat_inj] at *
  omega

theorem value_number {lexeme rest : Bytes} (levels : Nat) (h : Number.isLexeme lexeme = true)
    (ends : EndsToken rest) : value (levels + 1) (lexeme ++ rest) = .ok (.num lexeme, rest) := by
  obtain ⟨b, word, rfl, start⟩ := Number.head_of_isLexeme h
  obtain ⟨brace, bracket, quote, t, f, n⟩ := bare_of_number start
  refine value_word levels (List.all_eq_true.mpr fun c hc => ?_) ends ⟨brace, bracket, quote⟩ ?_
  · rw [not_endsToken_of_isNumberByte (Number.byte_of_isLexeme h hc)]
    rfl
  · have noTrue : b :: word ≠ bytes "true" := fun equal => t (List.cons.inj equal).1
    have noFalse : b :: word ≠ bytes "false" := fun equal => f (List.cons.inj equal).1
    have noNull : b :: word ≠ bytes "null" := fun equal => n (List.cons.inj equal).1
    simp only [token?, noTrue, noFalse, noNull, h, if_false, if_true]

theorem value_null {rest : Bytes} (levels : Nat) (ends : EndsToken rest) :
    value (levels + 1) (bytes "null" ++ rest) = .ok (.null, rest) :=
  value_word levels (by decide) ends (by decide) rfl

theorem value_bool {rest : Bytes} (levels : Nat) (b : Bool) (ends : EndsToken rest) :
    value (levels + 1) ((Node.bool b).toJson ++ rest) = .ok (.bool b, rest) := by
  cases b with
  | true => exact value_word levels (by decide) ends (by decide) rfl
  | false => exact value_word levels (by decide) ends (by decide) rfl

theorem value_string (levels : Nat) (t rest : Bytes) :
    value (levels + 1) (Quoted.quote t ++ rest) = .ok (.str t, rest) := by
  have opened : Quoted.quote t ++ rest = byte '"' :: (Quoted.escape t ++ byte '"' :: rest) := by
    simp [Quoted.quote]
  rw [opened, value, skipBlanks_cons (by decide)]
  simp only [show (byte '"' == byte '\x7b') = false by decide,
    show (byte '"' == byte '[') = false by decide, beq_self_eq_true, pieces_escape, if_true]
  simp [Except.map, assemble_map_pieceOf]

/-! ## Brackets -/

theorem opensValue_toJson {n : Node} (wf : n.WellFormed) (rest : Bytes) :
    OpensValue (n.toJson ++ rest) := by
  cases n with
  | null => exact ⟨byte 'n', _, rfl, by decide, by decide⟩
  | bool b =>
    cases b with
    | true => exact ⟨byte 't', _, rfl, by decide, by decide⟩
    | false => exact ⟨byte 'f', _, rfl, by decide, by decide⟩
  | num lexeme =>
    obtain ⟨b, word, rfl, start⟩ := Number.head_of_isLexeme wf
    refine ⟨b, word ++ rest, by simp [Node.toJson], ?_⟩
    simp [Byte.isDigit, Byte.isBlank, byte, UInt8.le_iff_toNat_le, ← UInt8.toNat_inj] at *
    omega
  | str t => exact ⟨byte '"', _, rfl, by decide, by decide⟩
  | arr items => exact ⟨byte '[', _, rfl, by decide, by decide⟩
  | obj entries => exact ⟨byte '\x7b', _, rfl, by decide, by decide⟩

theorem value_array {levels : Nat} {t rest : Bytes} {found : List Node} (opens : OpensValue t)
    (h : items (value levels) (t.length + 1) t = .ok (found, rest)) :
    value (levels + 1) (byte '[' :: t) = .ok (.arr found, rest) := by
  obtain ⟨b, u, rfl, blank, bracket⟩ := opens
  rw [value, skipBlanks_cons (by decide)]
  simp only [show (byte '[' == byte '\x7b') = false by decide, beq_self_eq_true, if_true,
    next?_other blank bracket, skipBlanks_cons blank, h]
  rfl

theorem value_object {levels : Nat} {t rest : Bytes} {found : List (Bytes × Node)}
    (some : next? (byte '\x7d') t = none)
    (h : entries (value levels) (t.length + 1) .empty t = .ok (found, rest)) :
    value (levels + 1) (byte '\x7b' :: t) = .ok (.obj found, rest) := by
  rw [value, skipBlanks_cons (by decide)]
  simp only [beq_self_eq_true, if_true, some, h]
  rfl

/-! ## Items and entries -/

theorem items_last {read : Bytes → Step (Node × Bytes)} {t rest : Bytes} {item : Node} (bound : Nat)
    (h : read t = .ok (item, byte ']' :: rest)) :
    items read (bound + 1) t = .ok ([item], rest) := by
  rw [items, h]
  simp only [bind, Except.bind,
    next?_other (show Byte.isBlank (byte ']') = false by decide)
      (show byte ']' ≠ byte ',' by decide),
    next?_self (show Byte.isBlank (byte ']') = false by decide)]
  rfl

theorem items_more {read : Bytes → Step (Node × Bytes)} {t u rest : Bytes} {item : Node}
    {more : List Node} {bound : Nat} (h : read t = .ok (item, byte ',' :: u))
    (others : items read bound u = .ok (more, rest)) :
    items read (bound + 1) t = .ok (item :: more, rest) := by
  rw [items, h]
  simp only [bind, Except.bind, next?_self (show Byte.isBlank (byte ',') = false by decide), others]
  rfl

/-- An entry is read, and what stands after it decides whether more are. -/
theorem entries_first {read : Bytes → Step (Node × Bytes)} {t u v after key : Bytes} {item : Node}
    {earlier : KeySet} (bound : Nat) (named : string t = .ok (key, u))
    (colon : next? (byte ':') u = some v) (h : read v = .ok (item, after))
    (fresh : earlier.contains key = false) :
    entries read (bound + 1) earlier t =
      match next? (byte ',') after with
      | some t => (entries read bound (earlier.insert key) t).map fun (more, t) =>
          ((key, item) :: more, t)
      | none =>
        match next? (byte '\x7d') after with
        | some t => .ok ([(key, item)], t)
        | none => .error ⟨skipBlanks after, .expectedBrace⟩ := by
  rw [entries, named]
  simp only [bind, Except.bind, colon, h, fresh, Bool.false_eq_true, if_false]
  cases next? (byte ',') after with
  | none => cases next? (byte '\x7d') after <;> rfl
  | some t => cases entries read bound (earlier.insert key) t <;> rfl

theorem entries_last {read : Bytes → Step (Node × Bytes)} {t rest key : Bytes} {item : Node}
    {earlier : KeySet} (bound : Nat) (fresh : earlier.contains key = false)
    (h : read t = .ok (item, byte '\x7d' :: rest)) :
    entries read (bound + 1) earlier (Quoted.quote key ++ byte ':' :: t) =
      .ok ([(key, item)], rest) := by
  rw [entries_first bound (string_quote key _) (next?_self (by decide) t) h fresh,
    next?_other (by decide) (by decide), next?_self (by decide)]

theorem entries_more {read : Bytes → Step (Node × Bytes)} {t u rest key : Bytes} {item : Node}
    {more : List (Bytes × Node)} {bound : Nat} {earlier : KeySet}
    (fresh : earlier.contains key = false) (h : read t = .ok (item, byte ',' :: u))
    (others : entries read bound (earlier.insert key) u = .ok (more, rest)) :
    entries read (bound + 1) earlier (Quoted.quote key ++ byte ':' :: t) =
      .ok ((key, item) :: more, rest) := by
  rw [entries_first bound (string_quote key _) (next?_self (by decide) t) h fresh,
    next?_self (by decide)]
  dsimp only
  rw [others]
  rfl

/-- Every printed item takes a byte at least, so the length of the text bounds their number. -/
theorem length_toJsonItems (items : List Node) :
    items.length ≤ (Node.toJsonItems items).length := by
  induction items with
  | nil => simp
  | cons item rest ih =>
    cases rest <;> simp [Node.toJsonItems] at *
    omega

theorem length_toJsonEntries (entries : List (Bytes × Node)) :
    entries.length ≤ (Node.toJsonEntries entries).length := by
  induction entries with
  | nil => simp
  | cons entry rest ih =>
    obtain ⟨key, value⟩ := entry
    cases rest <;> simp [Node.toJsonEntries] at * <;> omega

mutual

/-- A printed value is read back, and the text after it is left. The levels that are allowed have
to be more than the levels below the value. -/
theorem value_toJson (n : Node) : ∀ {levels : Nat} {rest : Bytes}, n.WellFormed →
    n.depth < levels → EndsToken rest → value levels (n.toJson ++ rest) = .ok (n, rest) := by
  intro levels rest wf shallow ends
  obtain ⟨levels, rfl⟩ : ∃ below, levels = below + 1 := ⟨levels - 1, by omega⟩
  cases n with
  | null => exact value_null levels ends
  | bool b => exact value_bool levels b ends
  | num lexeme => exact value_number levels wf ends
  | str t => exact value_string levels t rest
  | arr items =>
    cases items with
    | nil => rfl
    | cons item more =>
      have wfItem := (Node.wellFormedItems_cons.mp wf).1
      have opens : OpensValue (Node.toJsonItems (item :: more) ++ rest) := by
        cases more <;> simpa [Node.toJsonItems] using opensValue_toJson wfItem _
      -- The bound is the length of the text, in which every item takes up a byte at least.
      have length := length_toJsonItems (item :: more)
      refine value_array opens (items_toJson (item :: more) (List.cons_ne_nil _ _) wf ?_ ends ?_)
      · exact Nat.le_of_lt_succ shallow
      · simp at *
        omega
  | obj entries =>
    cases entries with
    | nil => rfl
    | cons entry more =>
      obtain ⟨t, opens⟩ : ∃ t, Node.toJsonEntries (entry :: more) ++ rest = byte '"' :: t := by
        cases more <;> exact ⟨_, rfl⟩
      have length := length_toJsonEntries (entry :: more)
      have enough : (entry :: more).length ≤ (byte '"' :: t).length.succ := by
        rw [← opens]
        simp at *
        omega
      have whole := entries_toJson (entry :: more) (List.cons_ne_nil _ _) wf
        (fun k _ => KeySet.contains_empty k) (Nat.le_of_lt_succ shallow) ends enough
      rw [opens] at whole
      have text : (Node.obj (entry :: more)).toJson ++ rest = byte '\x7b' :: byte '"' :: t := by
        rw [← opens]
        rfl
      rw [text]
      exact value_object (next?_other (by decide) (by decide) t) whole

theorem items_toJson (all : List Node) : ∀ {levels bound : Nat} {rest : Bytes}, all ≠ [] →
    Node.WellFormedItems all → Node.depthOfItems all ≤ levels → EndsToken rest →
    all.length ≤ bound →
    items (value levels) bound (Node.toJsonItems all ++ rest) = .ok (all, rest) := by
  intro levels bound rest some wf shallow ends enough
  cases all with
  | nil => exact absurd rfl some
  | cons item more =>
    obtain ⟨bound, rfl⟩ : ∃ below, bound = below + 1 := ⟨bound - 1, by simp at enough; omega⟩
    obtain ⟨here, below⟩ : item.depth < levels ∧ Node.depthOfItems more ≤ levels := by
      simp only [Node.depthOfItems] at shallow
      omega
    obtain ⟨wfItem, wfMore⟩ := Node.wellFormedItems_cons.mp wf
    have fewer : more.length ≤ bound := Nat.le_of_succ_le_succ enough
    cases more with
    | nil =>
      have ends' : EndsToken (byte ']' :: rest) := endsToken_cons (by decide) rest
      have read := value_toJson item wfItem here ends'
      exact items_last bound (by simpa [Node.toJsonItems] using read)
    | cons next more =>
      have ends' : EndsToken (byte ',' :: (Node.toJsonItems (next :: more) ++ rest)) :=
        endsToken_cons (by decide) _
      have read := value_toJson item wfItem here ends'
      have others := items_toJson (next :: more) (List.cons_ne_nil _ _) wfMore below ends fewer
      exact items_more (by simpa [Node.toJsonItems] using read) others

theorem entries_toJson (all : List (Bytes × Node)) :
    ∀ {levels bound : Nat} {earlier : KeySet} {rest : Bytes}, all ≠ [] →
    (all.map Prod.fst).Nodup ∧ Node.WellFormedEntries all →
    (∀ k, k ∈ all.map Prod.fst → earlier.contains k = false) →
    Node.depthOfEntries all ≤ levels → EndsToken rest → all.length ≤ bound →
    entries (value levels) bound earlier (Node.toJsonEntries all ++ rest) = .ok (all, rest) := by
  intro levels bound earlier rest some wf fresh shallow ends enough
  cases all with
  | nil => exact absurd rfl some
  | cons entry more =>
    obtain ⟨key, item⟩ := entry
    obtain ⟨bound, rfl⟩ : ∃ below, bound = below + 1 := ⟨bound - 1, by simp at enough; omega⟩
    obtain ⟨here, below⟩ : item.depth < levels ∧ Node.depthOfEntries more ≤ levels := by
      simp only [Node.depthOfEntries] at shallow
      omega
    obtain ⟨wfItem, wfMore⟩ := Node.wellFormedEntries_cons.mp wf.2
    have new := fresh key List.mem_cons_self
    have fewer : more.length ≤ bound := Nat.le_of_succ_le_succ enough
    cases more with
    | nil =>
      have ends' : EndsToken (byte '\x7d' :: rest) := endsToken_cons (by decide) rest
      have read := value_toJson item wfItem here ends'
      simpa [Node.toJsonEntries] using entries_last bound new read
    | cons next more =>
      have ends' : EndsToken (byte ',' :: (Node.toJsonEntries (next :: more) ++ rest)) :=
        endsToken_cons (by decide) _
      have read := value_toJson item wfItem here ends'
      obtain ⟨distinct, others⟩ := List.nodup_cons.mp wf.1
      -- A later key is none of the earlier ones, and not this one.
      have fresher : ∀ k, k ∈ (next :: more).map Prod.fst →
          (earlier.insert key).contains k = false := by
        intro k hk
        have different : k ≠ key := fun equal => distinct (equal ▸ hk)
        simpa [different] using fresh k (List.mem_cons_of_mem _ hk)
      have later := entries_toJson (next :: more) (List.cons_ne_nil _ _) ⟨others, wfMore⟩ fresher
        below ends fewer
      simpa [Node.toJsonEntries] using entries_more new read later

end

/-! ## Documents -/

theorem document_toJson {n : Node} (wf : n.WellFormed) (shallow : n.depth ≤ maxDepth) :
    document n.toJson = .ok n := by
  have whole : value (maxDepth + 1) n.toJson = .ok (n, []) := by
    have front := value_toJson n wf (Nat.lt_succ_of_le shallow) endsToken_nil
    rwa [List.append_nil] at front
  rw [document, whole]
  rfl

/-- A well-formed tree with at most so many levels below its root as the reader allows is read back
from its text exactly: with its keys in their order, and with every lexeme and every byte. -/
theorem read_toJson {n : Node} (wf : n.WellFormed) (shallow : n.depth ≤ maxDepth) :
    read n.toJson = .ok n := by
  rw [read, document_toJson wf shallow]
  rfl

/-- A tree whose key needs every kind of escape and holds a byte that is no UTF-8. -/
def exTree : Node :=
  .obj [([0x22, 0x5C, 0x0A, 0x09, 0x01, 0xFF], .num (bytes "-1.50e+3")),
    (bytes "list", .arr [.null, .bool true, .str [0x1F], .obj [], .arr [.arr []]])]

theorem read_toJson_exTree :
    exTree.WellFormed ∧ exTree.depth ≤ maxDepth ∧ read exTree.toJson = .ok exTree := by
  have wf : exTree.WellFormed := by
    simp only [exTree, Node.WellFormed, Node.WellFormedEntries, Node.WellFormedItems]
    decide
  exact ⟨wf, by decide, read_toJson wf (by decide)⟩

end Json

end HeaderForge
