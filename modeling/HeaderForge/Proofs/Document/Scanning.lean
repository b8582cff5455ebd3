import HeaderForge.Document.Printer
import HeaderForge.Document.Yaml.Line
import HeaderForge.Proofs.Document.WellFormed
/-!
# Scanning printed values

A line is searched for comments, colons and commas by one and the same scan, which knows quotes and
brackets but no escapes. So what the scan makes of a printed value depends on the quotes in its
strings: a string is sheltered where its quotes come in pairs with nothing between them that a
search would stop at.

1. `Scan.Passes` says where a scan stands after a text in which no search stops.
2. `Scan.passes_toJson`: over a printed value with sheltered strings the scan comes back to where it
   was.
3. `splitAtCommas_join`, `breakAtColon?_passes` and `dropComment_quiet` are the searches.
-/

namespace HeaderForge

namespace Yaml

namespace Scan

/-- After a whole text. -/
def run (s : Scan) (t : Bytes) : Scan := t.foldl step s

/-- What a line is split at. -/
inductive Separator where
  | comma
  | colon

def Separator.mark : Separator → UInt8
  | comma => byte ','
  | colon => byte ':'

/-- Whether a search stops at a byte: at a comment, or at a separator at the top. -/
def stopsAt (sep : Separator) (s : Scan) (b : UInt8) : Bool :=
  (b == byte '#' && s.outsideQuotes) || (b == sep.mark && s.atTop)

/-- The search for a separator does not stop in a text. -/
def Quiet (sep : Separator) : Scan → Bytes → Prop
  | _, [] => True
  | s, b :: rest => s.stopsAt sep b = false ∧ Quiet sep (s.step b) rest

/-- The search for a separator does not stop in a text, and the scan stands so after it. -/
structure Passes (sep : Separator) (s : Scan) (t : Bytes) (after : Scan) : Prop where
  quiet : s.Quiet sep t
  run : s.run t = after

variable {sep : Separator}

theorem stopsAt_other {b : UInt8} (hash : b ≠ byte '#') (comma : b ≠ byte ',')
    (colon : b ≠ byte ':') (s : Scan) : s.stopsAt sep b = false := by
  cases sep
  · simp [stopsAt, Separator.mark, hash, comma]
  · simp [stopsAt, Separator.mark, hash, colon]

theorem Passes.nil (s : Scan) : Passes sep s [] s := ⟨trivial, rfl⟩

theorem Passes.cons {s after : Scan} {b : UInt8} {t : Bytes} (here : s.stopsAt sep b = false)
    (rest : Passes sep (s.step b) t after) : Passes sep s (b :: t) after :=
  ⟨⟨here, rest.quiet⟩, rest.run⟩

theorem Passes.append {s middle after : Scan} {t u : Bytes} (first : Passes sep s t middle)
    (second : Passes sep middle u after) : Passes sep s (t ++ u) after := by
  induction t generalizing s with
  | nil =>
    cases first.run
    exact second
  | cons b t ih => exact .cons first.quiet.1 (ih ⟨first.quiet.2, first.run⟩)

/-! ## Where a scan of printed values stands -/

/-- Inside so many brackets, within double quotes or not. -/
def inside (quoted : Bool) (d : Nat) : Scan := ⟨false, quoted, d⟩

/-- The bytes that change the scan or that a search stops at. -/
def isMark (b : UInt8) : Bool := (bytes "'\"\x7b\x7d[],:#").contains b

theorem not_mark_iff {b : UInt8} : isMark b = false ↔ b ≠ byte '\'' ∧ b ≠ byte '"' ∧
    b ≠ byte '\x7b' ∧ b ≠ byte '\x7d' ∧ b ≠ byte '[' ∧ b ≠ byte ']' ∧ b ≠ byte ',' ∧
    b ≠ byte ':' ∧ b ≠ byte '#' := by
  have marks : bytes "'\"\x7b\x7d[],:#" = [byte '\'', byte '"', byte '\x7b', byte '\x7d', byte '[',
      byte ']', byte ',', byte ':', byte '#'] := rfl
  rw [isMark, marks]
  simp

theorem passes_plain {b : UInt8} (h : isMark b = false) (quoted : Bool) (d : Nat) :
    Passes sep (inside quoted d) [b] (inside quoted d) := by
  obtain ⟨single, double, brace, brace', bracket, bracket', comma, colon, hash⟩ := not_mark_iff.mp h
  refine .cons (stopsAt_other hash comma colon _) ⟨trivial, ?_⟩
  simp [run, step, single, double, brace, brace', bracket, bracket']

theorem passes_quoted {b : UInt8} (h : b ≠ byte '"') (d : Nat) :
    Passes sep (inside true d) [b] (inside true d) := by
  refine .cons ?_ ⟨trivial, ?_⟩
  · simp [stopsAt, outsideQuotes, atTop, inside]
  · simp [run, step, outsideQuotes, inside, h]

theorem passes_quote (quoted : Bool) (d : Nat) :
    Passes sep (inside quoted d) [byte '"'] (inside (!quoted) d) := by
  refine .cons (stopsAt_other (by decide) (by decide) (by decide) _) ⟨trivial, ?_⟩
  cases quoted <;> rfl

theorem passes_word {t : Bytes} (h : t.all (fun b => !isMark b) = true) (quoted : Bool) (d : Nat) :
    Passes sep (inside quoted d) t (inside quoted d) := by
  induction t with
  | nil => exact .nil _
  | cons b t ih =>
    simp only [List.all_cons, Bool.and_eq_true, Bool.not_eq_true'] at h
    exact (passes_plain h.1 quoted d).append (ih h.2)

theorem passes_quotedWord {t : Bytes} (h : ∀ b, b ∈ t → b ≠ byte '"') (d : Nat) :
    Passes sep (inside true d) t (inside true d) := by
  induction t with
  | nil => exact .nil _
  | cons b t ih =>
    exact (passes_quoted (h b List.mem_cons_self) d).append
      (ih fun c hc => h c (List.mem_cons_of_mem b hc))

/-- No search stops at commas and colons within brackets. -/
theorem passes_separator {b : UInt8} (h : b = byte ',' ∨ b = byte ':') (d : Nat) :
    Passes sep (inside false (d + 1)) [b] (inside false (d + 1)) := by
  have below : (inside false (d + 1)).atTop = false := by
    simp [atTop, inside]
    omega
  rcases h with rfl | rfl
  · exact .cons (by simp [stopsAt, below, byte]) ⟨trivial, rfl⟩
  · exact .cons (by simp [stopsAt, below, byte]) ⟨trivial, rfl⟩

/-- At the top too, the search for commas does not stop at colons. -/
theorem passes_colon (d : Nat) : Passes .comma (inside false d) [byte ':'] (inside false d) :=
  .cons (by simp [stopsAt, Separator.mark, byte]) ⟨trivial, rfl⟩

theorem passes_open {b : UInt8} (h : b = byte '\x7b' ∨ b = byte '[') (d : Nat) :
    Passes sep (inside false d) [b] (inside false (d + 1)) := by
  rcases h with rfl | rfl
  · exact .cons (stopsAt_other (by decide) (by decide) (by decide) _) ⟨trivial, rfl⟩
  · exact .cons (stopsAt_other (by decide) (by decide) (by decide) _) ⟨trivial, rfl⟩

theorem passes_close {b : UInt8} (h : b = byte '\x7d' ∨ b = byte ']') (d : Nat) :
    Passes sep (inside false (d + 1)) [b] (inside false d) := by
  have level : ((d + 1 : Nat) : Int) - 1 = d := by omega
  rcases h with rfl | rfl
  · exact .cons (stopsAt_other (by decide) (by decide) (by decide) _)
      ⟨trivial, congrArg (Scan.mk false false) level⟩
  · exact .cons (stopsAt_other (by decide) (by decide) (by decide) _)
      ⟨trivial, congrArg (Scan.mk false false) level⟩

end Scan

end Yaml

/-! ## Sheltered strings -/

/-- Whether a scan that takes every quote for the end or the start of a string sees no mark in a
text outside of quotes, and is within quotes at its end. From within quotes, this holds of every
text that has none. -/
def Bytes.sheltered : (quoted : Bool) → Bytes → Bool
  | quoted, [] => quoted
  | quoted, b :: rest =>
    if b == byte '"' then sheltered (!quoted) rest
    else (quoted || !Yaml.Scan.isMark b) && sheltered quoted rest

namespace Node

mutual
/-- The strings and keys of a tree are sheltered. -/
def Sheltered : Node → Prop
  | str value => Bytes.sheltered true value = true
  | arr items => ShelteredItems items
  | obj entries => ShelteredEntries entries
  | null | bool _ | num _ => True

def ShelteredItems : List Node → Prop
  | [] => True
  | item :: rest => Sheltered item ∧ ShelteredItems rest

def ShelteredEntries : List (Bytes × Node) → Prop
  | [] => True
  | (key, value) :: rest =>
    Bytes.sheltered true key = true ∧ Sheltered value ∧ ShelteredEntries rest
end

end Node

namespace Yaml

namespace Scan

/-- What the escape of a byte holds of what the scan looks for is the byte itself. -/
theorem marks_escapeByte : ∀ b : UInt8,
    ((b == byte '"' || (Quoted.escapeByte b).all (· != byte '"')) &&
      (isMark b || (Quoted.escapeByte b).all fun c => !isMark c)) = true :=
  Byte.of_all (by decide +kernel)

theorem passes_escapeByte {b : UInt8} {quoted : Bool} (other : b ≠ byte '"')
    (h : quoted = true ∨ isMark b = false) (d : Nat) :
    Passes sep (inside quoted d) (Quoted.escapeByte b) (inside quoted d) := by
  obtain ⟨quotes, marks⟩ := Bool.and_eq_true_iff.mp (marks_escapeByte b)
  rcases h with rfl | plain
  · have none : (Quoted.escapeByte b).all (· != byte '"') = true := by simpa [other] using quotes
    exact passes_quotedWord (fun c hc => by simpa using List.all_eq_true.mp none c hc) d
  · exact passes_word (by simpa only [plain, Bool.false_or] using marks) quoted d

/-- Every quote of a string turns the scan around, and sheltered strings turn it back. -/
theorem passes_escape {t : Bytes} {quoted : Bool} (h : Bytes.sheltered quoted t = true) (d : Nat) :
    Passes sep (inside quoted d) (Quoted.escape t) (inside true d) := by
  induction t generalizing quoted with
  | nil =>
    have ends : quoted = true := h
    rw [ends]
    exact .nil _
  | cons b t ih =>
    have text : Quoted.escape (b :: t) = Quoted.escapeByte b ++ Quoted.escape t := by
      simp [Quoted.escape]
    rw [text]
    by_cases quote : b = byte '"'
    · subst quote
      have turned : Bytes.sheltered (!quoted) t = true := by simpa [Bytes.sheltered] using h
      have escaped : Quoted.escapeByte (byte '"') = [byte '\\'] ++ [byte '"'] := rfl
      rw [escaped]
      exact ((passes_plain (by decide) quoted d).append (passes_quote quoted d)).append (ih turned)
    · simp only [Bytes.sheltered, beq_iff_eq, quote, if_false, Bool.and_eq_true, Bool.or_eq_true,
        Bool.not_eq_true'] at h
      exact (passes_escapeByte quote h.1 d).append (ih h.2)

theorem passes_string {t : Bytes} (h : Bytes.sheltered true t = true) (d : Nat) :
    Passes sep (inside false d) (Quoted.quote t) (inside false d) := by
  have text : Quoted.quote t = [byte '"'] ++ (Quoted.escape t ++ [byte '"']) := by
    simp [Quoted.quote]
  rw [text]
  exact (passes_quote false d).append ((passes_escape h d).append (passes_quote true d))

theorem passes_join {parts : List Bytes} {d : Nat}
    (h : ∀ p, p ∈ parts → Passes sep (inside false (d + 1)) p (inside false (d + 1))) :
    Passes sep (inside false (d + 1)) (Bytes.join [byte ','] parts) (inside false (d + 1)) := by
  induction parts with
  | nil => exact .nil _
  | cons part rest ih =>
    have first := h part List.mem_cons_self
    cases rest with
    | nil => exact first
    | cons next rest =>
      exact (first.append (passes_separator (.inl rfl) d)).append
        (ih fun p hp => h p (List.mem_cons_of_mem part hp))

end Scan

end Yaml

/-! ## Printed collections -/

namespace Node

/-- How an entry is printed. -/
def entryText (entry : Bytes × Node) : Bytes := Quoted.quote entry.1 ++ byte ':' :: entry.2.toJson

theorem toJsonItems_eq (items : List Node) :
    toJsonItems items = Bytes.join [byte ','] (items.map toJson) ++ [byte ']'] := by
  induction items with
  | nil => rfl
  | cons item rest ih =>
    cases rest with
    | nil => rfl
    | cons next rest =>
      rw [toJsonItems, ih]
      · simp [Bytes.join]
      · simp

theorem toJsonEntries_eq (entries : List (Bytes × Node)) :
    toJsonEntries entries = Bytes.join [byte ','] (entries.map entryText) ++ [byte '\x7d'] := by
  induction entries with
  | nil => rfl
  | cons entry rest ih =>
    cases rest with
    | nil => simp [toJsonEntries, entryText, Bytes.join]
    | cons next rest =>
      rw [toJsonEntries, ih]
      · simp [Bytes.join, entryText]
      · simp

end Node

namespace Yaml

namespace Scan

theorem not_mark_of_isNumberByte : ∀ b : UInt8,
    (!Number.isNumberByte b || !isMark b) = true :=
  Byte.of_all (by decide +kernel)

theorem passes_number {t : Bytes} (h : Number.isLexeme t = true) (d : Nat) :
    Passes sep (inside false d) t (inside false d) := by
  refine passes_word (List.all_eq_true.mpr fun b hb => ?_) false d
  simpa [Number.byte_of_isLexeme h hb] using not_mark_of_isNumberByte b

mutual

/-- A printed value leaves the scan where it was. -/
theorem passes_toJson (n : Node) (wf : n.WellFormed) (sheltered : n.Sheltered) (d : Nat) :
    Passes sep (inside false d) n.toJson (inside false d) := by
  cases n with
  | null => exact passes_word (by decide) false d
  | bool b => cases b <;> exact passes_word (by decide) false d
  | num lexeme => exact passes_number wf d
  | str value => exact passes_string sheltered d
  | arr items =>
    rw [Node.toJson, Node.toJsonItems_eq]
    exact (passes_open (.inr rfl) d).append
      ((passes_join (passes_items items wf sheltered (d + 1))).append (passes_close (.inr rfl) d))
  | obj entries =>
    rw [Node.toJson, Node.toJsonEntries_eq]
    exact (passes_open (.inl rfl) d).append
      ((passes_join (passes_entries entries wf.2 sheltered
        (passes_separator (.inr rfl) d))).append (passes_close (.inl rfl) d))

theorem passes_items (items : List Node) (wf : Node.WellFormedItems items)
    (sheltered : Node.ShelteredItems items) (d : Nat) :
    ∀ p, p ∈ items.map Node.toJson → Passes sep (inside false d) p (inside false d) := by
  cases items with
  | nil => simp
  | cons item rest =>
    intro p hp
    rcases List.mem_cons.mp hp with rfl | hp
    · exact passes_toJson item wf.1 sheltered.1 d
    · exact passes_items rest wf.2 sheltered.2 d p hp

theorem passes_entries (entries : List (Bytes × Node)) (wf : Node.WellFormedEntries entries)
    (sheltered : Node.ShelteredEntries entries) {d : Nat}
    (colon : Passes sep (inside false d) [byte ':'] (inside false d)) :
    ∀ p, p ∈ entries.map Node.entryText → Passes sep (inside false d) p (inside false d) := by
  cases entries with
  | nil => simp
  | cons entry rest =>
    obtain ⟨key, value⟩ := entry
    intro p hp
    rcases List.mem_cons.mp hp with rfl | hp
    · exact (passes_string sheltered.1 d).append
        (colon.append (passes_toJson value wf.1 sheltered.2.1 d))
    · exact passes_entries rest wf.2 sheltered.2.2 colon p hp

end

end Scan

/-! ## The searches -/

open Scan

theorem atTop_start : Scan.start.atTop = true := rfl

theorem not_mark_of_stopsAt {sep : Separator} {s : Scan} {b : UInt8}
    (h : s.stopsAt sep b = false) : (b == sep.mark && s.atTop) = false :=
  (Bool.or_eq_false_iff.mp h).2

theorem splitAtCommas_passes {s after : Scan} {t : Bytes} (h : Passes .comma s t after)
    (top : after.atTop = true) (rest : Bytes) :
    splitAtCommas s (t ++ byte ',' :: rest) = t :: splitAtCommas after rest := by
  induction t generalizing s with
  | nil =>
    cases h.run
    simp [splitAtCommas, show s.atTop = true from top, run]
  | cons b t ih =>
    have here : (b == byte ',' && s.atTop) = false := not_mark_of_stopsAt h.quiet.1
    rw [List.cons_append, splitAtCommas, here, ih ⟨h.quiet.2, h.run⟩]
    rfl

theorem splitAtCommas_quiet {s : Scan} {t : Bytes} (h : s.Quiet .comma t) :
    splitAtCommas s t = [t] := by
  induction t generalizing s with
  | nil => rfl
  | cons b t ih =>
    have here : (b == byte ',' && s.atTop) = false := not_mark_of_stopsAt h.1
    rw [splitAtCommas, here, ih h.2]
    rfl

/-- Splitting undoes joining, where no part has a comma at the top. -/
theorem splitAtCommas_join {parts : List Bytes} (some_part : parts ≠ [])
    (h : ∀ p, p ∈ parts → Passes .comma .start p .start) :
    splitAtCommas .start (Bytes.join [byte ','] parts) = parts := by
  induction parts with
  | nil => exact absurd rfl some_part
  | cons part rest ih =>
    have first := h part List.mem_cons_self
    cases rest with
    | nil => exact splitAtCommas_quiet first.quiet
    | cons next rest =>
      have text : Bytes.join [byte ','] (part :: next :: rest) =
          part ++ byte ',' :: Bytes.join [byte ','] (next :: rest) := by simp [Bytes.join]
      rw [text, splitAtCommas_passes first atTop_start,
        ih (List.cons_ne_nil _ _) fun p hp => h p (List.mem_cons_of_mem part hp)]

theorem breakAtColon?_passes {s after : Scan} {t : Bytes} (h : Passes .colon s t after)
    (top : after.atTop = true) (rest : Bytes) :
    breakAtColon? s (t ++ byte ':' :: rest) = some (t, rest) := by
  induction t generalizing s with
  | nil =>
    cases h.run
    simp [breakAtColon?, show s.atTop = true from top]
  | cons b t ih =>
    have here : (b == byte ':' && s.atTop) = false := not_mark_of_stopsAt h.quiet.1
    rw [List.cons_append, breakAtColon?, here, ih ⟨h.quiet.2, h.run⟩]
    rfl

theorem beforeComment?_quiet {sep : Separator} {s : Scan} {t : Bytes} (h : s.Quiet sep t)
    (afterBlank : Bool) : beforeComment? s afterBlank t = none := by
  induction t generalizing s afterBlank with
  | nil => rfl
  | cons b t ih =>
    have plain : (b == byte '#' && s.outsideQuotes && afterBlank) = false := by
      rw [(Bool.or_eq_false_iff.mp h.1).1, Bool.false_and]
    rw [beforeComment?, plain, ih h.2]
    rfl

theorem dropComment_quiet {sep : Separator} {t : Bytes} (h : Scan.start.Quiet sep t) :
    dropComment t = t := by
  rw [dropComment, beforeComment?_quiet h]

end Yaml

end HeaderForge
