import HeaderForge.Document.Yaml
import HeaderForge.Proofs.Document.Reading
import HeaderForge.Proofs.Document.Scanning
import HeaderForge.Proofs.Files.Path
/-!
# Printed values as values of a line

JSON is nearly YAML: a printed tree behind a key on one line is read as that tree, with its keys,
lexemes and bytes, as long as its strings are sheltered from the searches of the line. The quotes
within strings are what makes the difference, since an escaped quote turns every search around.

1. `unquoteDouble_escape`: unquoting undoes escaping.
2. `readPart_toJson`: a printed value is read back as a part of a flow collection.
3. `read_inline` puts the value on a line of its own document.
-/

namespace HeaderForge

/-! ## Texts that are trimmed already -/

/-- A text that starts and ends with bytes that are no blanks. -/
structure Tight (t : Bytes) : Prop where
  first : ∃ b rest, t = b :: rest ∧ Byte.isBlank b = false
  last : ∃ front b, t = front ++ [b] ∧ Byte.isBlank b = false

namespace Tight

theorem ne_nil {t : Bytes} (h : Tight t) : t ≠ [] := by
  obtain ⟨b, rest, rfl, -⟩ := h.first
  exact List.cons_ne_nil b rest

theorem trim {t : Bytes} (h : Tight t) : Bytes.trim t = t := by
  obtain ⟨b, rest, split, visible⟩ := h.first
  obtain ⟨front, c, split', visible'⟩ := h.last
  have kept : t.dropWhile Byte.isBlank = t := by
    rw [split, List.dropWhile_cons_of_neg (by simp [visible])]
  rw [Bytes.trim, kept, split']
  exact Document.dropEndWhile_append visible' front

theorem enclosed {b c : UInt8} (hb : Byte.isBlank b = false) (hc : Byte.isBlank c = false)
    (t : Bytes) : Tight (b :: (t ++ [c])) :=
  ⟨⟨b, _, rfl, hb⟩, ⟨b :: t, c, rfl, hc⟩⟩

theorem append {t u : Bytes} (first : Tight t) (second : Tight u) (between : Bytes) :
    Tight (t ++ between ++ u) := by
  obtain ⟨b, rest, rfl, visible⟩ := first.first
  obtain ⟨front, c, rfl, visible'⟩ := second.last
  exact ⟨⟨b, _, rfl, visible⟩, ⟨b :: rest ++ between ++ front, c, by simp, visible'⟩⟩

theorem of_all {t : Bytes} (some_byte : t ≠ []) (h : t.all (fun b => !Byte.isBlank b) = true) :
    Tight t := by
  have visible : ∀ b, b ∈ t → Byte.isBlank b = false := fun b hb => by
    simpa using List.all_eq_true.mp h b hb
  refine ⟨?_, ?_⟩
  · cases t with
    | nil => exact absurd rfl some_byte
    | cons b rest => exact ⟨b, rest, rfl, visible b List.mem_cons_self⟩
  · refine ⟨t.dropLast, t.getLast some_byte, (List.dropLast_concat_getLast some_byte).symm, ?_⟩
    exact visible _ (List.getLast_mem some_byte)

theorem join {parts : List Bytes} (some_part : parts ≠ []) (h : ∀ p, p ∈ parts → Tight p) :
    Tight (Bytes.join [byte ','] parts) := by
  induction parts with
  | nil => exact absurd rfl some_part
  | cons part rest ih =>
    have first := h part List.mem_cons_self
    cases rest with
    | nil => exact first
    | cons next rest =>
      have others := ih (List.cons_ne_nil _ _) fun p hp => h p (List.mem_cons_of_mem part hp)
      exact first.append others _

theorem toJson {n : Node} (wf : n.WellFormed) : Tight n.toJson := by
  cases n with
  | null => exact of_all (by decide) (by decide)
  | bool b => cases b <;> exact of_all (by decide) (by decide)
  | num lexeme =>
    obtain ⟨b, word, rfl, -⟩ := Number.head_of_isLexeme wf
    refine of_all (List.cons_ne_nil _ _) (List.all_eq_true.mpr fun c hc => ?_)
    have inner := Json.not_endsToken_of_isNumberByte (Number.byte_of_isLexeme wf hc)
    simp only [Json.endsToken, Bool.or_eq_false_iff] at inner
    simp [inner.2]
  | str value => exact enclosed (by decide) (by decide) _
  | arr items =>
    rw [Node.toJson, Node.toJsonItems_eq]
    exact enclosed (by decide) (by decide) _
  | obj entries =>
    rw [Node.toJson, Node.toJsonEntries_eq]
    exact enclosed (by decide) (by decide) _

theorem quote (t : Bytes) : Tight (Quoted.quote t) := enclosed (by decide) (by decide) _

theorem entryText {entry : Bytes × Node} (wf : entry.2.WellFormed) :
    Tight (Node.entryText entry) := by
  have text : Node.entryText entry = Quoted.quote entry.1 ++ [byte ':'] ++ entry.2.toJson := by
    simp [Node.entryText]
  rw [text]
  exact (quote entry.1).append (toJson wf) _

theorem of_mem_items {items : List Node} (wf : Node.WellFormedItems items) {p : Bytes}
    (hp : p ∈ items.map Node.toJson) : Tight p := by
  obtain ⟨item, member, rfl⟩ := List.mem_map.mp hp
  exact toJson (Node.wellFormedItems_iff.mp wf item member)

theorem of_mem_entries {entries : List (Bytes × Node)} (wf : Node.WellFormedEntries entries)
    {p : Bytes} (hp : p ∈ entries.map Node.entryText) : Tight p := by
  obtain ⟨entry, member, rfl⟩ := List.mem_map.mp hp
  exact entryText (Node.wellFormedEntries_iff.mp wf entry member)

end Tight

namespace Yaml

/-! ## Scalars -/

theorem unquoteDouble_plain {b : UInt8} (h : b ≠ byte '\\') (t : Bytes) :
    unquoteDouble (b :: t) = b :: unquoteDouble t := by
  cases t with
  | nil => rfl
  | cons letter rest =>
    rw [unquoteDouble.eq_def]
    simp [h]

theorem unquoteDouble_letter {letter : UInt8} (h : letter ≠ byte 'u') (t : Bytes) :
    unquoteDouble (byte '\\' :: letter :: t) = unescaped letter :: unquoteDouble t := by
  rw [unquoteDouble.eq_def]
  simp [h]

theorem unquoteDouble_unit {d₃ d₂ d₁ d₀ : UInt8} {code : Nat}
    (h : Quoted.hex4? d₃ d₂ d₁ d₀ = some code) (t : Bytes) :
    unquoteDouble (byte '\\' :: byte 'u' :: d₃ :: d₂ :: d₁ :: d₀ :: t) =
      Quoted.utf8 code ++ unquoteDouble t := by
  rw [unquoteDouble.eq_def]
  simp [h]

theorem unquoteDouble_escapeByte (b : UInt8) (t : Bytes) :
    unquoteDouble (Quoted.escapeByte b ++ t) = b :: unquoteDouble t := by
  -- First the bytes with an escape of two letters, then the other control characters.
  by_cases backslash : b = byte '\\'
  · subst backslash
    exact unquoteDouble_letter (by decide) t
  by_cases quote : b = byte '"'
  · subst quote
    exact unquoteDouble_letter (by decide) t
  by_cases feed : b = byte '\n'
  · subst feed
    exact unquoteDouble_letter (by decide) t
  by_cases carriage : b = byte '\r'
  · subst carriage
    exact unquoteDouble_letter (by decide) t
  by_cases tab : b = byte '\t'
  · subst tab
    exact unquoteDouble_letter (by decide) t
  by_cases control : b < 0x20
  · have escaped : Quoted.escapeByte b =
        bytes "\\u00" ++ [Byte.hexDigit (b.toNat / 16 % 16), Byte.hexDigit (b.toNat % 16)] := by
      simp [Quoted.escapeByte, backslash, quote, feed, carriage, tab, control, hexText]
    have small : b.toNat < 0x20 := UInt8.lt_iff_toNat_lt.mp control
    have alone : Quoted.utf8 b.toNat = [b] := by
      simp only [Quoted.utf8, show b.toNat < 0x80 by omega, if_true]
      simp
    rw [escaped]
    exact (unquoteDouble_unit (Json.hex4?_hexText b) t).trans (by rw [alone]; rfl)
  · have escaped : Quoted.escapeByte b = [b] := by
      simp [Quoted.escapeByte, backslash, quote, feed, carriage, tab, control]
    rw [escaped]
    exact unquoteDouble_plain backslash t

theorem unquoteDouble_escape (t : Bytes) : unquoteDouble (Quoted.escape t) = t := by
  induction t with
  | nil => rfl
  | cons b t ih =>
    have text : Quoted.escape (b :: t) = Quoted.escapeByte b ++ Quoted.escape t := by
      simp [Quoted.escape]
    rw [text, unquoteDouble_escapeByte, ih]

theorem unquote?_quote (t : Bytes) : unquote? (Quoted.quote t) = some t := by
  have enclosed : between? (byte '"') (Quoted.quote t) = some (Quoted.escape t) := by
    simp [between?, Quoted.quote]
  rw [unquote?, enclosed]
  simp [unquoteDouble_escape]

theorem keyText_quote (t : Bytes) : keyText (Quoted.quote t) = t := by
  rw [keyText, (Tight.quote t).trim]
  simp [unquote?_quote]

theorem scalar_number {t : Bytes} (h : Number.isLexeme t = true) : scalar t = .num t := by
  have tight : Tight t := by simpa [Node.toJson] using Tight.toJson (n := .num t) h
  obtain ⟨b, word, rfl, start⟩ := Number.head_of_isLexeme h
  -- What spells something else starts with neither a digit nor a minus.
  have apart : ∀ w : Bytes, (w.head?.all fun c => !Byte.isDigit c && c != byte '-') = true →
      b :: word ≠ w := by
    rintro w other rfl
    rcases start with digit | rfl
    · simp [digit] at other
    · simp at other
  have unquoted : unquote? (b :: word) = none := by
    have double : b ≠ byte '"' := fun equal => apart (byte '"' :: word) rfl (by rw [equal])
    have single : b ≠ byte '\'' := fun equal => apart (byte '\'' :: word) rfl (by rw [equal])
    simp [unquote?, between?, double, single]
  simp only [scalar, tight.trim, List.isEmpty_cons, apart (bytes "~") rfl, apart (bytes "null") rfl,
    apart (bytes "Null") rfl, apart (bytes "NULL") rfl, apart (bytes "true") rfl,
    apart (bytes "True") rfl, apart (bytes "TRUE") rfl, apart (bytes "false") rfl,
    apart (bytes "False") rfl, apart (bytes "FALSE") rfl, unquoted, h]
  rfl

theorem scalar_quote (t : Bytes) : scalar (Quoted.quote t) = .str t := by
  have apart : ∀ w : Bytes, (w.head?.all fun c => c != byte '"') = true → Quoted.quote t ≠ w := by
    rintro w other rfl
    simp [Quoted.quote] at other
  have some_byte : (Quoted.quote t).isEmpty = false := rfl
  simp only [scalar, (Tight.quote t).trim, some_byte, apart (bytes "~") rfl,
    apart (bytes "null") rfl, apart (bytes "Null") rfl, apart (bytes "NULL") rfl, unquote?_quote]
  rfl

/-! ## Flow collections -/

theorem flowParts_join {parts : List Bytes}
    (h : ∀ p, p ∈ parts → Tight p ∧ Scan.Passes .comma .start p .start) :
    flowParts (Bytes.join [byte ','] parts) = parts := by
  cases parts with
  | nil => rfl
  | cons part rest =>
    have split := splitAtCommas_join (List.cons_ne_nil part rest) fun p hp => (h p hp).2
    have trimmed : (part :: rest).map Bytes.trim = part :: rest :=
      (List.map_congr_left fun p hp => (h p hp).1.trim).trans (List.map_id _)
    have last : (part :: rest).getLast? ≠ some [] := by
      intro empty
      exact (h [] (List.mem_of_getLast? empty)).1.ne_nil rfl
    simp only [flowParts, split, trimmed, last, if_false]

theorem inside_join {parts : List Bytes} (h : ∀ p, p ∈ parts → Tight p) (b c : UInt8) :
    inside (b :: (Bytes.join [byte ','] parts ++ [c])) = Bytes.join [byte ','] parts := by
  have cut : ((b :: (Bytes.join [byte ','] parts ++ [c])).drop 1).dropLast =
      Bytes.join [byte ','] parts := by
    rw [List.drop_one, List.tail_cons, List.dropLast_concat]
  rw [inside, cut]
  cases parts with
  | nil => rfl
  | cons part rest => exact (Tight.join (List.cons_ne_nil part rest) h).trim

/-- How a part of a flow collection is read, with the levels that are left for it. -/
def readPart (line levels : Nat) (part : Bytes) : Step Node :=
  if opensFlow part then flow line levels part else .ok (scalar part)

theorem flow_array {line levels : Nat} {parts : List Bytes} {items : List Node}
    (fine : ∀ p, p ∈ parts → Tight p ∧ Scan.Passes .comma .start p .start)
    (h : flowItems (readPart line levels) parts = .ok items) :
    flow line (levels + 1) (byte '[' :: (Bytes.join [byte ','] parts ++ [byte ']'])) =
      .ok (.arr items) := by
  have array : (byte '[' :: (Bytes.join [byte ','] parts ++ [byte ']'])).head? =
      some (byte '[') := rfl
  rw [flow, if_pos array, inside_join fun p hp => (fine p hp).1, flowParts_join fine]
  change (flowItems (readPart line levels) parts).map Node.arr = _
  rw [h]
  rfl

theorem flow_object {line levels : Nat} {parts : List Bytes} {entries : List (Bytes × Node)}
    (fine : ∀ p, p ∈ parts → Tight p ∧ Scan.Passes .comma .start p .start)
    (h : flowEntries line (readPart line levels) .empty parts = .ok entries) :
    flow line (levels + 1) (byte '\x7b' :: (Bytes.join [byte ','] parts ++ [byte '\x7d'])) =
      .ok (.obj entries) := by
  have object : (byte '\x7b' :: (Bytes.join [byte ','] parts ++ [byte '\x7d'])).head? ≠
      some (byte '[') := by simp [byte]
  rw [flow, if_neg object, inside_join fun p hp => (fine p hp).1, flowParts_join fine]
  change (flowEntries line (readPart line levels) .empty parts).map Node.obj = _
  rw [h]
  rfl

/-! ## Parts of flow collections -/

theorem not_opensFlow {b : UInt8} {t : Bytes} (brace : b ≠ byte '\x7b') (bracket : b ≠ byte '[') :
    opensFlow (b :: t) = false := by
  simp [opensFlow, brace, bracket]

theorem readPart_scalar {line levels : Nat} {part : Bytes} (h : opensFlow part = false) :
    readPart line levels part = .ok (scalar part) := by
  rw [readPart, h]
  rfl

theorem flowEntries_cons {line : Nat} {item : Bytes → Step Node} {key : Bytes} {value : Node}
    {parts : List Bytes} {more : List (Bytes × Node)} {earlier : KeySet} (wf : value.WellFormed)
    (sheltered : Bytes.sheltered true key = true) (fresh : earlier.contains key = false)
    (first : item value.toJson = .ok value)
    (others : flowEntries line item (earlier.insert key) parts = .ok more) :
    flowEntries line item earlier (Node.entryText (key, value) :: parts) =
      .ok ((key, value) :: more) := by
  have split : breakAtColon? .start (Node.entryText (key, value)) =
      some (Quoted.quote key, value.toJson) :=
    breakAtColon?_passes (Scan.passes_string sheltered 0) atTop_start value.toJson
  simp only [flowEntries, split, keyText_quote, fresh, (Tight.toJson wf).trim, first, others]
  rfl

mutual

/-- A printed value is read back, when the levels that are left are more than the levels below
it. -/
theorem readPart_toJson (line : Nat) (n : Node) : ∀ {levels : Nat}, n.WellFormed → n.Sheltered →
    n.depth < levels → readPart line levels n.toJson = .ok n := by
  intro levels wf sheltered shallow
  obtain ⟨levels, rfl⟩ : ∃ below, levels = below + 1 := ⟨levels - 1, by omega⟩
  cases n with
  | null => rfl
  | bool b => cases b <;> rfl
  | num lexeme =>
    have plain : opensFlow lexeme = false := by
      obtain ⟨b, word, rfl, start⟩ := Number.head_of_isLexeme wf
      exact not_opensFlow (Json.bare_of_number start).1 (Json.bare_of_number start).2.1
    rw [Node.toJson, readPart_scalar plain, scalar_number wf]
  | str value =>
    have plain : opensFlow (Quoted.quote value) = false := not_opensFlow (by decide) (by decide)
    rw [Node.toJson, readPart_scalar plain, scalar_quote]
  | arr items =>
    have fine : ∀ p, p ∈ items.map Node.toJson → Tight p ∧ Scan.Passes .comma .start p .start :=
      fun p hp => ⟨Tight.of_mem_items wf hp, Scan.passes_items items wf sheltered 0 p hp⟩
    have inner := flowItems_toJson line items wf sheltered (Nat.le_of_lt_succ shallow)
    rw [Node.toJson, Node.toJsonItems_eq]
    exact flow_array fine inner
  | obj entries =>
    have fine : ∀ p, p ∈ entries.map Node.entryText →
        Tight p ∧ Scan.Passes .comma .start p .start :=
      fun p hp => ⟨Tight.of_mem_entries wf.2 hp,
        Scan.passes_entries entries wf.2 sheltered (Scan.passes_colon 0) p hp⟩
    have inner := flowEntries_toJson line entries wf
      (fun k _ => KeySet.contains_empty k) sheltered (Nat.le_of_lt_succ shallow)
    rw [Node.toJson, Node.toJsonEntries_eq]
    exact flow_object fine inner

theorem flowItems_toJson (line : Nat) (items : List Node) : ∀ {levels : Nat},
    Node.WellFormedItems items → Node.ShelteredItems items →
    Node.depthOfItems items ≤ levels →
    flowItems (readPart line levels) (items.map Node.toJson) = .ok items := by
  intro levels wf sheltered shallow
  cases items with
  | nil => rfl
  | cons item rest =>
    obtain ⟨here, below⟩ : item.depth < levels ∧ Node.depthOfItems rest ≤ levels := by
      simp only [Node.depthOfItems] at shallow
      omega
    have first := readPart_toJson line item wf.1 sheltered.1 here
    have others := flowItems_toJson line rest wf.2 sheltered.2 below
    rw [List.map_cons, flowItems, first, others]
    rfl

theorem flowEntries_toJson (line : Nat) (entries : List (Bytes × Node)) :
    ∀ {levels : Nat} {earlier : KeySet},
    (entries.map Prod.fst).Nodup ∧ Node.WellFormedEntries entries →
    (∀ k, k ∈ entries.map Prod.fst → earlier.contains k = false) →
    Node.ShelteredEntries entries → Node.depthOfEntries entries ≤ levels →
    flowEntries line (readPart line levels) earlier (entries.map Node.entryText) = .ok entries := by
  intro levels earlier wf fresh sheltered shallow
  cases entries with
  | nil => rfl
  | cons entry rest =>
    obtain ⟨key, value⟩ := entry
    obtain ⟨here, below⟩ : value.depth < levels ∧ Node.depthOfEntries rest ≤ levels := by
      simp only [Node.depthOfEntries] at shallow
      omega
    obtain ⟨distinct, others⟩ := List.nodup_cons.mp wf.1
    -- A later key is none of the earlier ones, and not this one.
    have fresher : ∀ k, k ∈ rest.map Prod.fst → (earlier.insert key).contains k = false := by
      intro k hk
      have different : k ≠ key := fun equal => distinct (equal ▸ hk)
      simpa [different] using fresh k (List.mem_cons_of_mem _ hk)
    have first := readPart_toJson line value wf.2.1 sheltered.2.1 here
    have more := flowEntries_toJson line rest ⟨others, wf.2.2⟩ fresher sheltered.2.2 below
    exact flowEntries_cons wf.2.1 sheltered.1 (fresh key List.mem_cons_self) first more

end

/-! ## Values of entries -/

theorem nested_flow {inline : Bytes} {n : Node} {parent line depth : Nat} (opens : opensFlow inline)
    (closes : inline.getLast? = some (closing inline))
    (h : flow line (maxDepth + 1 - depth) inline = .ok n) (bound : Nat) (lines : List Line) :
    nested (bound + 1) inline parent line depth lines = .ok (n, lines) := by
  cases inline with
  | nil => exact nomatch opens
  | cons b rest =>
    have bar : (b == byte '|' || b == byte '>') = false := by
      have bracket : b = byte '\x7b' ∨ b = byte '[' := by simpa [opensFlow] using opens
      rcases bracket with rfl | rfl <;> rfl
    rw [nested.eq_def]
    simp only [List.head?_cons, bar, Bool.false_eq_true, if_false, opens, if_true, closes, h]
    rfl

theorem nested_scalar {inline : Bytes} (some_byte : inline ≠ []) (plain : opensFlow inline = false)
    (bar : inline.head? ≠ some (byte '|') ∧ inline.head? ≠ some (byte '>'))
    (parent line depth bound : Nat) (lines : List Line) :
    nested (bound + 1) inline parent line depth lines = .ok (scalar inline, lines) := by
  cases inline with
  | nil => exact absurd rfl some_byte
  | cons b rest =>
    have bar : (b == byte '|' || b == byte '>') = false := by simpa using bar
    rw [nested.eq_def]
    simp only [List.head?_cons, bar, Bool.false_eq_true, if_false, plain]

theorem not_bar_toJson {n : Node} (wf : n.WellFormed) :
    n.toJson.head? ≠ some (byte '|') ∧ n.toJson.head? ≠ some (byte '>') := by
  cases n with
  | null => decide
  | bool b => cases b <;> decide
  | num lexeme =>
    obtain ⟨b, word, rfl, start⟩ := Number.head_of_isLexeme wf
    simp [Node.toJson, Byte.isDigit, byte, UInt8.le_iff_toNat_le, ← UInt8.toNat_inj] at *
    omega
  | str value => simp [Node.toJson, Quoted.quote, byte]
  | arr items => simp [Node.toJson, byte]
  | obj entries => simp [Node.toJson, byte]

theorem closes_toJson {n : Node} (wf : n.WellFormed) (opens : opensFlow n.toJson) :
    n.toJson.getLast? = some (closing n.toJson) := by
  cases n with
  | null => exact nomatch opens
  | bool b => cases b <;> exact nomatch opens
  | num lexeme =>
    obtain ⟨b, word, rfl, start⟩ := Number.head_of_isLexeme wf
    have bare := Json.bare_of_number start
    rw [Node.toJson, not_opensFlow bare.1 bare.2.1] at opens
    exact nomatch opens
  | str value =>
    rw [Node.toJson, Quoted.quote, List.cons_append, not_opensFlow (by decide) (by decide)] at opens
    exact nomatch opens
  | arr items =>
    rw [Node.toJson, Node.toJsonItems_eq, ← List.cons_append, List.getLast?_concat]
    simp [closing, byte]
  | obj entries =>
    rw [Node.toJson, Node.toJsonEntries_eq, ← List.cons_append, List.getLast?_concat]
    simp [closing]

/-- A printed value on the line of its entry is read back. -/
theorem nested_toJson {n : Node} {depth : Nat} (wf : n.WellFormed) (sheltered : n.Sheltered)
    (shallow : n.depth + depth ≤ maxDepth) (parent line bound : Nat) (lines : List Line) :
    nested (bound + 1) n.toJson parent line depth lines = .ok (n, lines) := by
  have read : readPart line (maxDepth + 1 - depth) n.toJson = .ok n :=
    readPart_toJson line n wf sheltered (by omega)
  unfold readPart at read
  split at read
  · next opens => exact nested_flow opens (closes_toJson wf opens) read bound lines
  · next plain =>
    have plain : opensFlow n.toJson = false := by simpa using plain
    rw [nested_scalar (Tight.toJson wf).ne_nil plain (not_bar_toJson wf), Except.ok.inj read]

/-! ## Documents of one line -/

theorem ofText_line {t : Bytes} (whole : Tight t) (feed : byte '\n' ∉ t)
    (kept : t.head? ≠ some (byte '#') ∧ t ≠ bytes "---" ∧ t ≠ bytes "...") :
    Line.ofText (t ++ [byte '\n']) = [⟨0, dropComment t, t, 1⟩] := by
  have pieces : Bytes.splitAll (byte '\n') (t ++ [byte '\n']) = [t, []] := by
    rw [Bytes.splitAll_append, Bytes.splitAll_of_not_mem feed]
    rfl
  have carriage : Line.dropCarriageReturn t = t := by
    obtain ⟨front, b, rfl, visible⟩ := whole.last
    have other : b ≠ byte '\r' := by
      rintro rfl
      exact nomatch visible
    simp [Line.dropCarriageReturn, other]
  have indent : t.takeWhile (· == byte ' ') = [] := by
    obtain ⟨b, rest, rfl, visible⟩ := whole.first
    have other : b ≠ byte ' ' := by
      rintro rfl
      exact nomatch visible
    simp [other]
  have piece : Line.ofPiece? 1 t = some ⟨0, dropComment t, t, 1⟩ := by
    simp [Line.ofPiece?, carriage, indent, whole.trim, whole.ne_nil, kept]
  rw [Line.ofText, pieces, Line.ofPieces, piece]
  rfl

/-- An entry that nothing follows. -/
theorem mapping_last (line : Line) {bound depth : Nat} {after : List Line} {before inline : Bytes}
    {n : Node} (plain : Line.isDash line.content = false)
    (colon : breakAtKeyColon? .start line.content = some (before, inline))
    (value : nested (bound + 1) (Bytes.trim inline) line.indent line.number (depth + 1) after =
      .ok (n, [])) :
    mapping (bound + 2) line.indent depth .empty (line :: after) =
      .ok ([(keyText before, n)], []) := by
  rw [mapping]
  simp only [Nat.lt_irrefl, if_false, gt_iff_lt, plain, Bool.false_eq_true, colon, value, bind,
    Except.bind, KeySet.contains_empty]
  rw [mapping]
  rfl

/-- A document whose first line belongs to a mapping. -/
theorem read_mapping {t : Bytes} {line : Line} {after : List Line} {entries : List (Bytes × Node)}
    (text : Line.ofText t = line :: after) (plain : Line.isDash line.content = false)
    (h : mapping (weight (line :: after) - 1) line.indent 0 .empty (line :: after) =
      .ok (entries, [])) :
    read t = .ok (.obj entries) := by
  obtain ⟨bound, enough⟩ : ∃ bound, weight (line :: after) = bound + 1 :=
    ⟨_, rfl⟩
  rw [enough, Nat.add_sub_cancel] at h
  have root : block (bound + 1) line.indent 0 (line :: after) = .ok (.obj entries, []) := by
    rw [block]
    simp only [show ¬ 0 > maxDepth by decide, if_false, plain, Bool.false_eq_true, h]
    rfl
  rw [read, text]
  simp only [document, enough, root]
  rfl

/-- A document of one entry whose value stands on its line. -/
theorem read_entry {t before inline : Bytes} {line : Line} {n : Node}
    (text : Line.ofText t = [line]) (plain : Line.isDash line.content = false)
    (colon : breakAtKeyColon? .start line.content = some (before, inline))
    (value : ∀ bound, nested (bound + 1) (Bytes.trim inline) line.indent line.number 1 [] =
      .ok (n, [])) :
    read t = .ok (.obj [(keyText before, n)]) := by
  obtain ⟨bound, enough⟩ : ∃ bound, weight [line] - 1 = bound + 2 := ⟨weight [line] - 3, by
    simp only [weight, List.map_cons, List.foldr_cons]
    omega⟩
  refine read_mapping text plain ?_
  rw [enough]
  exact mapping_last line plain colon (value bound)

theorem no_feed_escapeByte : ∀ b : UInt8, (!(Quoted.escapeByte b).contains (byte '\n')) = true :=
  Byte.of_all (by decide +kernel)

theorem feed_not_mem_quote (t : Bytes) : byte '\n' ∉ Quoted.quote t := by
  have inner : byte '\n' ∉ Quoted.escape t := by
    intro member
    obtain ⟨b, -, hb⟩ := List.mem_flatMap.mp member
    have absent := no_feed_escapeByte b
    simp [hb] at absent
  simpa [Quoted.quote, byte] using inner

theorem feed_not_mem_join {parts : List Bytes} (h : ∀ p, p ∈ parts → byte '\n' ∉ p) :
    byte '\n' ∉ Bytes.join [byte ','] parts := by
  intro member
  rcases Bytes.mem_of_mem_join member with comma | ⟨part, there, inside⟩
  · exact absurd comma (by decide)
  · exact h part there inside

mutual

/-- A printed value stands on one line. -/
theorem feed_not_mem_toJson (n : Node) (wf : n.WellFormed) : byte '\n' ∉ n.toJson := by
  cases n with
  | null => decide
  | bool b => cases b <;> decide
  | num lexeme => exact fun member => nomatch Number.byte_of_isLexeme wf member
  | str value => exact feed_not_mem_quote value
  | arr items =>
    have inner := feed_not_mem_join (feed_not_mem_items items wf)
    rw [Node.toJson, Node.toJsonItems_eq]
    simpa [byte] using inner
  | obj entries =>
    have inner := feed_not_mem_join (feed_not_mem_entries entries wf.2)
    rw [Node.toJson, Node.toJsonEntries_eq]
    simpa [byte] using inner

theorem feed_not_mem_items (items : List Node) (wf : Node.WellFormedItems items) :
    ∀ p, p ∈ items.map Node.toJson → byte '\n' ∉ p := by
  cases items with
  | nil => exact fun p hp => nomatch hp
  | cons item rest =>
    intro p hp
    rcases List.mem_cons.mp hp with rfl | hp
    · exact feed_not_mem_toJson item wf.1
    · exact feed_not_mem_items rest wf.2 p hp

theorem feed_not_mem_entries (entries : List (Bytes × Node)) (wf : Node.WellFormedEntries entries) :
    ∀ p, p ∈ entries.map Node.entryText → byte '\n' ∉ p := by
  cases entries with
  | nil => exact fun p hp => nomatch hp
  | cons entry rest =>
    intro p hp
    rcases List.mem_cons.mp hp with rfl | hp
    · have key := feed_not_mem_quote entry.1
      have value := feed_not_mem_toJson entry.2 wf.1
      simpa [Node.entryText, byte] using ⟨key, value⟩
    · exact feed_not_mem_entries rest wf.2 p hp

end

/-! ## Printed values on a line -/

/-- A document of one line whose only entry holds a printed tree. -/
def inlineText (n : Node) : Bytes := bytes "k: " ++ n.toJson ++ [byte '\n']

/-- What the document of a printed tree has on its line, as long as no search takes part of it for a
comment. -/
theorem ofText_inlineText {n : Node} (wf : n.WellFormed) :
    Line.ofText (inlineText n) =
      [⟨0, dropComment (bytes "k: " ++ n.toJson), bytes "k: " ++ n.toJson, 1⟩] := by
  have key : Tight (bytes "k:") := .of_all (by decide) (by decide)
  have whole : Tight (bytes "k: " ++ n.toJson) := key.append (Tight.toJson wf) [byte ' ']
  have feed : byte '\n' ∉ bytes "k: " ++ n.toJson := by
    have front : byte '\n' ∉ bytes "k: " := by decide
    exact fun member => (List.mem_append.mp member).elim front (feed_not_mem_toJson n wf)
  refine ofText_line whole feed ⟨?_, ?_, ?_⟩
  · simp [bytes, byte]
  · exact fun equal => nomatch (List.cons.inj equal).1
  · exact fun equal => nomatch (List.cons.inj equal).1

theorem breakAtKeyColon?_inline (t : Bytes) :
    breakAtKeyColon? .start (bytes "k: " ++ t) = some (bytes "k", byte ' ' :: t) := rfl

/-- A well-formed tree that is not nested too deep is read from its own text on the line of an
entry, as long as its strings are sheltered: as long as the escaped quotes in them come in pairs and
nothing that a line is searched for stands between the two. -/
theorem read_inline {n : Node} (wf : n.WellFormed) (sheltered : n.Sheltered)
    (shallow : n.depth < maxDepth) : read (inlineText n) = .ok (.obj [(bytes "k", n)]) := by
  have passes : Scan.Passes .comma .start (bytes "k: " ++ n.toJson) .start := by
    have key : Scan.Passes .comma .start (bytes "k: ") .start :=
      ((Scan.passes_word (t := bytes "k") (by decide) false 0).append (Scan.passes_colon 0)).append
        (Scan.passes_word (t := bytes " ") (by decide) false 0)
    exact key.append (Scan.passes_toJson n wf sheltered 0)
  have text := ofText_inlineText wf
  rw [dropComment_quiet passes.quiet] at text
  have inline : Bytes.trim (byte ' ' :: n.toJson) = n.toJson := (Tight.toJson wf).trim
  refine read_entry text rfl (breakAtKeyColon?_inline n.toJson) fun bound => ?_
  rw [inline]
  exact nested_toJson wf sheltered shallow 0 1 bound []

/-- A tree with a pair of quotes, an apostrophe and a comma in its strings. -/
def exInline : Node :=
  .obj [(bytes "it's", .str (bytes "say \"hi\", twice")),
    (bytes "list", .arr [.num (bytes "-1.5e3"), .null, .obj [], .arr [.bool true]])]

theorem read_inline_exInline :
    exInline.WellFormed ∧ exInline.Sheltered ∧ exInline.depth < maxDepth ∧
      read (inlineText exInline) = .ok (.obj [(bytes "k", exInline)]) := by
  have wf : exInline.WellFormed := by
    simp only [exInline, Node.WellFormed, Node.WellFormedEntries, Node.WellFormedItems]
    decide
  have sheltered : exInline.Sheltered := by
    simp only [exInline, Node.Sheltered, Node.ShelteredEntries, Node.ShelteredItems]
    decide
  exact ⟨wf, sheltered, by decide, read_inline wf sheltered (by decide)⟩

/-- One quote alone leaves the searches within quotes after its string, so the comma behind it
separates nothing: what is read is one string that spans both. -/
def exTorn : Node := .arr [.str (bytes "\""), .str (bytes "a")]

theorem read_exTorn :
    read (inlineText exTorn) = .ok (.obj [(bytes "k", .arr [.str (bytes "\"\",\"a")])]) := by
  have wf : exTorn.WellFormed := ⟨trivial, trivial, trivial⟩
  refine read_entry (ofText_inlineText wf) rfl (breakAtKeyColon?_inline _) fun bound => ?_
  exact nested_flow rfl rfl rfl bound []

/-- Being well-formed and shallow is not enough. -/
theorem not_readsInline : ¬ ∀ n : Node, n.WellFormed → n.depth ≤ 200 →
    read (inlineText n) = .ok (.obj [(bytes "k", n)]) := by
  intro reads
  have same := reads exTorn ⟨trivial, trivial, trivial⟩ (by decide)
  rw [read_exTorn] at same
  exact nomatch same

end Yaml

end HeaderForge
