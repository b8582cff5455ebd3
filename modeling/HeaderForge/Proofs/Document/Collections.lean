import HeaderForge.Proofs.Document.Blocks
import HeaderForge.Proofs.Document.Brackets
import HeaderForge.Proofs.Document.Inline
import HeaderForge.Proofs.Document.Layout
/-!
# Brackets of collections

A flow collection that is the value of an entry has to end with the bracket that closes it. For the
collections within it, whatever byte comes last is taken for that bracket, and brackets in keys and
plain scalars are not looked at.

1. `Encloses` are the collections within a collection, and `Tidy` ones have no other brackets.
2. `follows_of_flow`: a collection that is read closes its brackets if each collection in it ends
   with its own bracket, and else leaves some of them open.
3. `flow_of_read`: what has been read where the document of one entry is read.
4. `wellNested_iff_allClosed` puts these together.
-/

namespace HeaderForge

namespace Yaml

/-! ## Collections within collections -/

/-- The key of a part of a flow collection. A sequence has none. -/
def keyOf? (t part : Bytes) : Option Bytes :=
  if t.head? = some (byte '[') then none else (breakAtColon? .start part).map Prod.fst

/-- What is read of a part of a flow collection as an item or a value. -/
def valueOf? (t part : Bytes) : Option Bytes :=
  if t.head? = some (byte '[') then some part
  else (breakAtColon? .start part).map fun cut => Bytes.trim cut.2

/-- The flow collections that are read within a text. -/
inductive Encloses : Bytes → Bytes → Prop
  | self {t : Bytes} : opensFlow t = true → Encloses t t
  | part {t part value inner : Bytes} : opensFlow t = true → part ∈ flowParts (inside t) →
      valueOf? t part = some value → Encloses value inner → Encloses t inner

/-- The keys and the plain values in a collection close their quotes and brackets. -/
structure Tidy (t : Bytes) : Prop where
  keys : ∀ inner part key, Encloses t inner → part ∈ flowParts (inside inner) →
    keyOf? inner part = some key → Balanced key
  plain : ∀ inner part value, Encloses t inner → part ∈ flowParts (inside inner) →
    valueOf? inner part = some value → opensFlow value = false → Balanced value

/-- A collection ends with its own bracket. -/
def Closed (t : Bytes) : Prop := t.getLast? = some (closing t)

/-! ## Collections that are read -/

theorem ok_of_mem_flowItems {item : Bytes → Step Node} {parts : List Bytes} {found : List Node}
    (h : flowItems item parts = .ok found) : ∀ part, part ∈ parts → ∃ n, item part = .ok n := by
  induction parts generalizing found with
  | nil => exact List.forall_mem_nil _
  | cons part rest ih =>
    rw [flowItems] at h
    obtain ⟨first, read, h⟩ := ok_of_bind h
    obtain ⟨others, more, -⟩ := ok_of_bind h
    exact List.forall_mem_cons.mpr ⟨⟨first, read⟩, ih more⟩

theorem ok_of_mem_flowEntries {line : Nat} {item : Bytes → Step Node} {earlier : KeySet}
    {parts : List Bytes} {found : List (Bytes × Node)}
    (h : flowEntries line item earlier parts = .ok found) : ∀ part, part ∈ parts →
      ∃ before after n, breakAtColon? .start part = some (before, after) ∧
        item (Bytes.trim after) = .ok n := by
  induction parts generalizing earlier found with
  | nil => exact List.forall_mem_nil _
  | cons part rest ih =>
    rw [flowEntries] at h
    split at h
    · cases h
    · next before after colon =>
      dsimp only at h
      split at h
      · cases h
      · obtain ⟨first, read, h⟩ := ok_of_bind h
        obtain ⟨others, more, -⟩ := ok_of_bind h
        exact List.forall_mem_cons.mpr ⟨⟨before, after, first, colon, read⟩, ih more⟩

/-- Each part of a collection that is read has something to read in it. -/
theorem exists_value {line levels : Nat} {t part : Bytes} {n : Node}
    (reads : flow line (levels + 1) t = .ok n) (member : part ∈ flowParts (inside t)) :
    ∃ value m, valueOf? t part = some value ∧ readPart line levels value = .ok m := by
  rw [flow] at reads
  unfold valueOf?
  split at reads
  · next sequence =>
    obtain ⟨found, items, -⟩ := ok_of_map reads
    obtain ⟨m, read⟩ := ok_of_mem_flowItems items part member
    exact ⟨part, m, if_pos sequence, read⟩
  · next mapping =>
    obtain ⟨found, entries, -⟩ := ok_of_map reads
    obtain ⟨before, after, m, colon, read⟩ := ok_of_mem_flowEntries entries part member
    exact ⟨Bytes.trim after, m, by rw [if_neg mapping, colon]; rfl, read⟩

/-- The part that a piece is trimmed to, if it is one. -/
theorem trim_mem_flowParts {inner piece : Bytes} (member : piece ∈ splitAtCommas .start inner) :
    Bytes.trim piece ∈ flowParts inner ∨ Bytes.trim piece = [] := by
  have part : Bytes.trim piece ∈ (splitAtCommas .start inner).map Bytes.trim :=
    List.mem_map_of_mem member
  unfold flowParts
  dsimp only
  split
  · next last =>
    obtain ⟨front, equal⟩ := List.getLast?_eq_some_iff.mp last
    rw [equal] at part ⊢
    rw [List.dropLast_concat]
    exact (List.mem_append.mp part).imp_right List.mem_singleton.mp
  · exact .inl part

theorem exists_piece {inner part : Bytes} (member : part ∈ flowParts inner) :
    ∃ piece, piece ∈ splitAtCommas .start inner ∧ Bytes.trim piece = part := by
  refine List.mem_map.mp ?_
  unfold flowParts at member
  dsimp only at member
  split at member
  · exact (List.dropLast_sublist _).subset member
  · exact member

/-- All collections in a text end with their own brackets. -/
def AllClosed (t : Bytes) : Prop := ∀ inner, Encloses t inner → Closed inner

theorem exists_cons_of_opensFlow {t : Bytes} (opens : opensFlow t = true) :
    ∃ b rest, t = b :: rest ∧ isOpening b = true := by
  cases t with
  | nil => exact nomatch opens
  | cons b rest => exact ⟨b, rest, rfl, by simpa [opensFlow, isOpening] using opens⟩

/-- A part closes its brackets just as what is read of it does: what else stands in it is a key. -/
theorem follows_part {t part value : Bytes} (tidy : Tidy t) (opens : opensFlow t = true)
    (member : part ∈ flowParts (inside t)) (found : valueOf? t part = some value)
    (h : Follows (AllClosed value) value) : Follows (AllClosed value) part := by
  unfold valueOf? at found
  split at found
  · cases found
    exact h
  · next mapping =>
    obtain ⟨⟨before, after⟩, colon, rfl⟩ := Option.map_eq_some_iff.mp found
    have key : Balanced before := tidy.keys t part before (.self opens) member (by
      rw [keyOf?, if_neg mapping, colon]
      rfl)
    obtain ⟨front, back, text, blank, blank'⟩ := Bytes.exists_trim after
    have mark : Balanced [byte ':'] := ⟨rfl, rfl⟩
    have whole := (h.between blank blank').after (key.append mark)
    rw [← text, List.append_assoc] at whole
    rwa [eq_of_breakAtColon? colon]

theorem Tidy.part {t part value : Bytes} (tidy : Tidy t) (opens : opensFlow t = true)
    (member : part ∈ flowParts (inside t)) (found : valueOf? t part = some value) : Tidy value :=
  ⟨fun inner _ _ within => tidy.keys inner _ _ (.part opens member found within),
    fun inner _ _ within => tidy.plain inner _ _ (.part opens member found within)⟩

theorem encloses_iff {t inner : Bytes} : Encloses t inner ↔ opensFlow t = true ∧ (inner = t ∨
    ∃ part value, part ∈ flowParts (inside t) ∧ valueOf? t part = some value ∧
      Encloses value inner) := by
  constructor
  · rintro (opens | ⟨opens, member, found, within⟩)
    · exact ⟨opens, .inl rfl⟩
    · exact ⟨opens, .inr ⟨_, _, member, found, within⟩⟩
  · rintro ⟨opens, rfl | ⟨part, value, member, found, within⟩⟩
    · exact .self opens
    · exact .part opens member found within

/-- The collections in the parts of a collection end with their own brackets. -/
def PartsClosed (t : Bytes) : Prop := ∀ part value, part ∈ flowParts (inside t) →
  valueOf? t part = some value → AllClosed value

theorem allClosed_iff {t : Bytes} (opens : opensFlow t = true) :
    AllClosed t ↔ PartsClosed t ∧ Closed t := by
  constructor
  · intro all
    exact ⟨fun part value member found inner within => all inner (.part opens member found within),
      all t (.self opens)⟩
  · rintro ⟨parts, whole⟩ inner (- | ⟨-, member, found, within⟩)
    · exact whole
    · exact parts _ _ member found inner within

/-- What is left open between the brackets of a collection is left open in the last one of its
parts. -/
theorem follows_inside {t : Bytes} (opens : opensFlow t = true) (tidy : Tidy t)
    (values : ∀ part, part ∈ flowParts (inside t) →
      ∃ value, valueOf? t part = some value ∧ Follows (AllClosed value) value) :
    Follows (PartsClosed t) (inside t) := by
  have each (piece : Bytes) (member : piece ∈ splitAtCommas .start (inside t)) :
      Follows (∀ value, Bytes.trim piece ∈ flowParts (inside t) →
        valueOf? t (Bytes.trim piece) = some value → AllClosed value) piece := by
    have trimmed : Follows (∀ value, Bytes.trim piece ∈ flowParts (inside t) →
        valueOf? t (Bytes.trim piece) = some value → AllClosed value) (Bytes.trim piece) := by
      by_cases part : Bytes.trim piece ∈ flowParts (inside t)
      · obtain ⟨value, found, follows⟩ := values _ part
        exact (follows_part tidy opens part found follows).congr (by simp [part, found])
      · have empty := (trim_mem_flowParts member).resolve_left part
        refine .of_balanced (fun _ part' => absurd part' part) ?_
        rw [empty]
        exact ⟨rfl, rfl⟩
    obtain ⟨front, back, text, before, behind⟩ := Bytes.exists_trim piece
    have whole := trimmed.between before behind
    rwa [← text] at whole
  refine ((pieces_splitAtCommas .start (inside t)).follows each).congr ⟨?_, ?_⟩
  · exact fun all piece _ value => all _ value
  · intro all part value member found
    obtain ⟨piece, inPieces, rfl⟩ := exists_piece member
    exact all piece inPieces value member found

theorem not_closed_byte {b : UInt8} (opening : isOpening b = true) : ¬ Closed [b] := by
  intro closed
  have same : b = closing [b] := Option.some.inj closed
  rw [same, (closing_bracket [b]).1] at opening
  exact nomatch opening

theorem follows_collection {t : Bytes} (opens : opensFlow t = true)
    (h : Follows (PartsClosed t) (inside t)) : Follows (AllClosed t) t := by
  obtain ⟨b, rest, rfl, opening⟩ := exists_cons_of_opensFlow opens
  rcases List.eq_nil_or_concat' rest with rfl | ⟨body, last, rfl⟩
  · refine ⟨fun all => absurd (all _ (.self opens)) (not_closed_byte opening), ?_⟩
    intro _ awaited left found
    rw [brackets_opening opening, brackets, Yaml.awaited?, if_pos opening] at found
    cases found
    exact Nat.lt_succ_self _
  · obtain ⟨front, back, text, before, behind⟩ := Bytes.exists_trim body
    have content : inside (b :: (body ++ [last])) = Bytes.trim body := by
      rw [inside, List.drop_one, List.tail_cons, List.dropLast_concat]
    have last : Closed (b :: (body ++ [last])) ↔ last = closing [b] := by
      rw [Closed, ← List.cons_append, List.getLast?_concat, Option.some_inj]
      rfl
    rw [content] at h
    have whole := h.between before behind
    rw [← text] at whole
    exact (Follows.enclosed opening whole).congr
      ((allClosed_iff opens).trans (and_congr_right' last))

/-- A collection that is read closes its brackets if all collections in it end with theirs, and else
it leaves some of them open. -/
theorem follows_of_flow {line levels : Nat} {t : Bytes} {n : Node} (opens : opensFlow t = true)
    (tidy : Tidy t) (reads : flow line levels t = .ok n) : Follows (AllClosed t) t := by
  induction levels generalizing t n with
  | zero => exact nomatch reads
  | succ levels ih =>
    refine follows_collection opens (follows_inside opens tidy fun part member => ?_)
    obtain ⟨value, m, found, read⟩ := exists_value reads member
    refine ⟨value, found, ?_⟩
    rw [readPart] at read
    split at read
    · next opensValue => exact ih opensValue (tidy.part opens member found) read
    · next plain =>
      refine .of_balanced ?_ (tidy.plain t part value (.self opens) member found
        (Bool.eq_false_iff.mpr plain))
      exact fun inner within => absurd (encloses_iff.mp within).1 plain

/-! ## Values of entries -/

/-- The text of a value that stands on the line of an entry. -/
def valueText (v : Bytes) : Bytes := dropComment (Bytes.trim v)

theorem trim_dropCarriageReturn (t : Bytes) :
    Bytes.trim (Line.dropCarriageReturn t) = Bytes.trim t := by
  unfold Line.dropCarriageReturn
  split
  · next last =>
    obtain ⟨front, rfl⟩ := List.getLast?_eq_some_iff.mp last
    rw [List.dropLast_concat, Bytes.trim_append_blank (by decide)]
  · rfl

theorem plain_of_isOpening {b : UInt8} (opens : isOpening b = true) :
    Byte.isBlank b = false ∧ (b == byte '#') = false := by
  have bracket : b = byte '\x7b' ∨ b = byte '[' := by simpa [isOpening] using opens
  rcases bracket with rfl | rfl <;> exact ⟨rfl, rfl⟩

/-- What stands behind a key is trimmed as on its own, and keeps the bracket that it starts with. -/
theorem trim_entry {t : Bytes} (opens : opensFlow t = true) :
    Bytes.trim (bytes "k: " ++ t) = bytes "k: " ++ Bytes.trim t ∧
      opensFlow (Bytes.trim t) = true := by
  obtain ⟨b, rest, rfl, opening⟩ := exists_cons_of_opensFlow opens
  have visible := (plain_of_isOpening opening).1
  rw [Bytes.trim_cons visible]
  refine ⟨?_, opens⟩
  change Bytes.trim (byte 'k' :: byte ':' :: byte ' ' :: b :: rest) = _
  rw [Bytes.trim_cons (by decide), dropEndWhile_cons (by decide), dropEndWhile,
    dropEndWhile_cons visible]
  rfl

/-- A comment behind the value of an entry is a comment behind the value alone. -/
theorem dropComment_entry {t : Bytes} (opens : opensFlow t = true) :
    dropComment (bytes "k: " ++ t) = bytes "k: " ++ dropComment t ∧
      opensFlow (dropComment t) = true := by
  obtain ⟨b, rest, rfl, opening⟩ := exists_cons_of_opensFlow opens
  have comment : beforeComment? .start true (bytes "k: " ++ b :: rest) =
      (beforeComment? .start true (b :: rest)).map (bytes "k: " ++ ·) := by
    have key : beforeComment? .start true (bytes "k: " ++ b :: rest) =
      (((beforeComment? .start true (b :: rest)).map (byte ' ' :: ·)).map (byte ':' :: ·)).map
        (byte 'k' :: ·) := rfl
    rw [key, Option.map_map, Option.map_map]
    rfl
  unfold dropComment
  rw [comment]
  cases found : beforeComment? .start true (b :: rest) with
  | none => exact ⟨rfl, opens⟩
  | some before =>
    have first : opensFlow before = true := by
      rw [beforeComment?, (plain_of_isOpening opening).2] at found
      obtain ⟨more, -, rfl⟩ := Option.map_eq_some_iff.mp found
      exact opens
    exact trim_entry first

/-- The document of one entry with a collection on its line. -/
theorem ofText_entry {v : Bytes} (line : byte '\n' ∉ v) (opens : opensFlow v = true) :
    Line.ofText (bytes "k: " ++ v) =
      [⟨0, bytes "k: " ++ valueText v, bytes "k: " ++ Bytes.trim v, 1⟩] := by
  have plain : byte '\n' ∉ bytes "k: " ++ v := by
    have key : byte '\n' ∉ bytes "k: " := by decide
    exact fun member => (List.mem_append.mp member).elim key line
  obtain ⟨trimmed, opensTrimmed⟩ := trim_entry opens
  have raw : Bytes.trim (Line.dropCarriageReturn (bytes "k: " ++ v)) =
      bytes "k: " ++ Bytes.trim v := by rw [trim_dropCarriageReturn, trimmed]
  have piece : Line.ofPiece? 1 (bytes "k: " ++ v) =
      some ⟨0, bytes "k: " ++ valueText v, bytes "k: " ++ Bytes.trim v, 1⟩ := by
    rw [Line.dropCarriageReturn_append (by decide)] at raw
    have spaces : (bytes "k: " ++ Line.dropCarriageReturn v).takeWhile (· == byte ' ') = [] := rfl
    rw [Line.ofPiece?_eq, Line.dropCarriageReturn_append (by decide), Line.ofBare?]
    simp only [spaces, List.length_nil, List.drop_zero, raw, (dropComment_entry opensTrimmed).1]
    exact if_neg (by simp [bytes, byte])
  rw [Line.ofText, Bytes.splitAll_of_not_mem plain, Line.ofPieces, piece]
  rfl

theorem trim_valueText (v : Bytes) : Bytes.trim (valueText v) = valueText v := by
  unfold valueText dropComment
  split <;> exact Bytes.trim_trim _

/-- Where the document of one entry is read, its value was read as a flow collection that ends with
its own bracket. -/
theorem flow_of_read {v : Bytes} {n : Node} (line : byte '\n' ∉ v) (opens : opensFlow v = true)
    (reads : read (bytes "k: " ++ v) = .ok n) :
    opensFlow (valueText v) = true ∧ Closed (valueText v) ∧
      ∃ m, flow 1 maxDepth (valueText v) = .ok m := by
  have opensValue : opensFlow (valueText v) = true := (dropComment_entry (trim_entry opens).2).2
  refine ⟨opensValue, ?_⟩
  have content := breakAtKeyColon?_inline (valueText v)
  have inline : Bytes.trim (byte ' ' :: valueText v) = valueText v :=
    (Bytes.trim_cons_blank (by decide) _).trans (trim_valueText v)
  rw [Yaml.read, ofText_entry line opens] at reads
  obtain ⟨⟨found, rest⟩, root, -⟩ := ok_of_bind (ok_of_mapError reads)
  obtain ⟨bound, enough⟩ : ∃ bound, weight [⟨0, bytes "k: " ++ valueText v,
      bytes "k: " ++ Bytes.trim v, 1⟩] = bound + 3 := ⟨_, rfl⟩
  rw [enough] at root
  have noDash : Line.isDash (bytes "k: " ++ valueText v) ≠ true := Bool.false_ne_true
  cases blockReads_of_block root with
  | items _ dash => exact absurd dash noDash
  | entries _ _ entries =>
    cases mappingReads_of_mapping entries with
    | ended last =>
      rcases last _ rfl with less | ⟨-, dash⟩
      · exact absurd less (Nat.lt_irrefl 0)
      · exact absurd dash noDash
    | entry _ _ colon value =>
      cases colon.symm.trans content
      rw [inline] at value
      cases nestedReads_of_nested value with
      | flow _ closes read => exact ⟨closes, _, read⟩
      | nothing empty =>
        rw [empty] at opensValue
        exact absurd opensValue Bool.false_ne_true
      | scalar _ plain => exact absurd opensValue (Bool.eq_false_iff.mp plain)
      | text bar =>
        obtain ⟨b, rest, equal, opening⟩ := exists_cons_of_opensFlow opensValue
        rw [equal, List.head?_cons, Option.some_inj, Option.some_inj] at bar
        rcases bar with rfl | rfl <;> exact absurd opening Bool.false_ne_true

/-- A collection that is read as the value of an entry ends with its own bracket. Where its keys and
plain values close their brackets, all its brackets are balanced and properly nested if each
collection within it ends with its own bracket as well, and only then. -/
theorem wellNested_iff_allClosed {v : Bytes} {n : Node} (line : byte '\n' ∉ v)
    (opens : opensFlow v = true) (reads : read (bytes "k: " ++ v) = .ok n) :
    Closed (valueText v) ∧
      (Tidy (valueText v) → (WellNested (valueText v) ↔ AllClosed (valueText v))) := by
  obtain ⟨opensValue, closed, m, flow⟩ := flow_of_read line opens reads
  refine ⟨closed, fun tidy => ?_⟩
  have follows := follows_of_flow opensValue tidy flow
  refine ⟨fun nested => ?_, fun all => (follows.balanced all).nested⟩
  refine Classical.by_contradiction fun fails => ?_
  exact absurd (follows.deepens fails [] [] nested) (Nat.lt_irrefl 0)

/-- A sequence in a mapping, with a comment behind it that has a bracket of its own. -/
def exNested : Bytes := bytes "\x7ba: [b]\x7d # ]"

theorem wellNested_iff_allClosed_exNested :
    byte '\n' ∉ exNested ∧ opensFlow exNested = true ∧
      read (bytes "k: " ++ exNested) = .ok (.obj [(bytes "k",
        .obj [(bytes "a", .arr [.str (bytes "b")])])]) ∧
      Tidy (valueText exNested) ∧ WellNested (valueText exNested) ∧
      AllClosed (valueText exNested) := by
  have line : byte '\n' ∉ exNested := by decide
  have reads : read (bytes "k: " ++ exNested) = .ok (.obj [(bytes "k",
      .obj [(bytes "a", .arr [.str (bytes "b")])])]) := by
    refine read_entry (ofText_entry line rfl) rfl (breakAtKeyColon?_inline _) fun bound => ?_
    exact nested_flow rfl rfl rfl bound []
  have entries : flowParts (inside (valueText exNested)) = [bytes "a: [b]"] := by decide
  have items : flowParts (inside (bytes "[b]")) = [bytes "b"] := by decide
  have entry : valueOf? (valueText exNested) (bytes "a: [b]") = some (bytes "[b]") := rfl
  have within {inner : Bytes} (h : Encloses (valueText exNested) inner) :
      inner = valueText exNested ∨ inner = bytes "[b]" := by
    obtain ⟨-, whole | ⟨part, value, member, found, deeper⟩⟩ := encloses_iff.mp h
    · exact .inl whole
    · rw [entries, List.mem_singleton] at member
      subst member
      cases entry.symm.trans found
      obtain ⟨-, whole | ⟨part, value, member, found, deeper⟩⟩ := encloses_iff.mp deeper
      · exact .inr whole
      · rw [items, List.mem_singleton] at member
        subst member
        cases found
        exact nomatch (encloses_iff.mp deeper).1
  have tidy : Tidy (valueText exNested) := by
    constructor
    · intro inner part key h member found
      rcases within h with rfl | rfl
      · rw [entries, List.mem_singleton] at member
        subst member
        cases found
        exact ⟨rfl, rfl⟩
      · exact nomatch found
    · intro inner part value h member found plain
      rcases within h with rfl | rfl
      · rw [entries, List.mem_singleton] at member
        subst member
        cases entry.symm.trans found
        exact nomatch plain
      · rw [items, List.mem_singleton] at member
        subst member
        cases found
        exact ⟨rfl, rfl⟩
  have nested : WellNested (valueText exNested) := rfl
  exact ⟨line, rfl, reads, tidy, nested,
    ((wellNested_iff_allClosed line rfl reads).2 tidy).mp nested⟩

/-- A sequence in a sequence, with one closing bracket for both. -/
def exUnclosed : Bytes := bytes "[[a]"

/-- A collection that is read need not have its brackets balanced: the byte `a` is taken for the
bracket of the inner sequence. -/
theorem not_wellNested_of_read : ¬ ∀ v n, byte '\n' ∉ v → opensFlow v = true →
    read (bytes "k: " ++ v) = .ok n → WellNested v := by
  intro nested
  have line : byte '\n' ∉ exUnclosed := by decide
  have reads : read (bytes "k: " ++ exUnclosed) = .ok (.obj [(bytes "k", .arr [.arr []])]) := by
    refine read_entry (ofText_entry line rfl) rfl (breakAtKeyColon?_inline _) fun bound => ?_
    exact nested_flow rfl rfl rfl bound []
  exact nomatch nested exUnclosed _ line rfl reads

end Yaml

end HeaderForge
