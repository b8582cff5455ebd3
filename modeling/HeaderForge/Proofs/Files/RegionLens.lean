import HeaderForge.Proofs.Files.Region
/-!
# A marked region is a lens

Merging reads and replaces one part of a text and leaves the rest of it alone. Bodies are put
between markers that are found by trimmed lines, so a body without a marker among its lines is all
that can be asked for: whatever line ends it has, the new text is cut where the old one was.

1. `contents_ended`: the line feed that is added to a body changes what no line says.
2. `Cut.locate_between`: a text put together around a body without markers is cut around it.
3. `Region.merge_lens_laws`: the bytes outside the region stay, the region is where the body was
   put, and of bodies that are merged one after the other the last one decides.
-/

namespace HeaderForge

/-! ## What lines say -/

/-- What the lines of a text say. -/
def contents (t : Bytes) : List Bytes := (lines t).map lineContent

theorem dropEndWhile_append_singleton {α : Type} {p : α → Bool} {x : α} (h : p x = true)
    (xs : List α) : dropEndWhile p (xs ++ [x]) = dropEndWhile p xs := by
  induction xs with
  | nil => simp [dropEndWhile, h]
  | cons y xs ih => rw [List.cons_append, dropEndWhile, dropEndWhile, ih]

theorem lineContent_feed (line : Bytes) : lineContent (line ++ [byte '\n']) = lineContent line := by
  unfold lineContent
  rw [dropEndWhile_append_singleton rfl]

/-- A text without a line feed in it is a single line when one ends it. -/
theorem lines_feed {line : Bytes} (whole : byte '\n' ∉ line) :
    lines (line ++ [byte '\n']) = [line ++ [byte '\n']] := by
  induction line with
  | nil => rfl
  | cons b line ih =>
    obtain ⟨other, later⟩ := not_or.mp (mt List.mem_cons.mpr whole)
    rw [List.cons_append, lines, if_neg (by simpa using Ne.symm other), ih later]

/-- A line feed ends the last line, if that is open. -/
theorem lines_append_feed {t : Bytes} (some_byte : t ≠ []) (openEnd : ¬ Ended t) :
    ∃ before last, lines t = before ++ [last] ∧
      lines (t ++ [byte '\n']) = before ++ [last ++ [byte '\n']] := by
  induction t with
  | nil => exact absurd rfl some_byte
  | cons b t ih =>
    cases t with
    | nil =>
      have plain : (b == byte '\n') = false := by
        have : ¬ b = byte '\n' := by simpa [Ended] using openEnd
        simpa using this
      exact ⟨[], [b], by simp [lines, plain], by simp [lines, plain]⟩
    | cons c t =>
      have later : ¬ Ended (c :: t) := by simpa [Ended] using openEnd
      obtain ⟨before, last, split, split'⟩ := ih (List.cons_ne_nil _ _) later
      generalize c :: t = rest at split split' ⊢
      rw [List.cons_append, lines, lines, split, split']
      by_cases feed : (b == byte '\n') = true
      · rw [if_pos feed, if_pos feed]
        exact ⟨[b] :: before, last, rfl, rfl⟩
      · rw [if_neg feed, if_neg feed]
        -- The byte belongs to the first line, which is the last one where there is no other.
        cases before with
        | nil => exact ⟨[], b :: last, rfl, rfl⟩
        | cons first before => exact ⟨(b :: first) :: before, last, rfl, rfl⟩

theorem contents_ended (t : Bytes) : contents (ended t) = contents t := by
  by_cases ends : Ended t
  · rw [ended_of_ended ends]
  · have some_byte : t ≠ [] := fun empty => ends (Or.inl empty)
    obtain ⟨before, last, split, split'⟩ := lines_append_feed some_byte ends
    have added : ended t = t ++ [byte '\n'] := by
      unfold ended
      split
      · next none => exact absurd (List.getLast?_eq_none_iff.mp none) some_byte
      · next b found =>
        refine if_neg fun feed => ends (Or.inr ?_)
        rw [found, beq_iff_eq.mp feed]
    rw [contents, contents, added, split, split']
    simp [lineContent_feed]

theorem contents_append {t : Bytes} (h : Ended t) (u : Bytes) :
    contents (t ++ u) = contents t ++ contents u := by
  rw [contents, lines_append h, List.map_append]
  rfl

theorem isSome_findLine (wanted : Bytes) (offset : Nat) (ls : List Bytes) :
    (findLine wanted offset ls).isSome = (ls.map lineContent).contains wanted := by
  induction ls generalizing offset with
  | nil => rfl
  | cons line ls ih =>
    rw [findLine, List.map_cons, List.contains_cons]
    by_cases same : lineContent line = wanted
    · simp [same]
    · have other : (wanted == lineContent line) = false := by simpa using Ne.symm same
      rw [if_neg same, ih, other, Bool.false_or]

/-- A text carries the identity of a schema in one of its lines. -/
theorem carries_eq (m : Markers) (t schemaName : Bytes) :
    carries m t schemaName = (contents t).contains (m.identityLine schemaName) :=
  isSome_findLine _ 0 (lines t)

namespace Region

variable {m : Markers} {t front inner back : Bytes}

theorem unmarked_iff {m : Markers} {t : Bytes} :
    Unmarked m (lines t) ↔ ∀ text, text ∈ contents t → text ≠ m.opening ∧ text ≠ m.closing := by
  unfold Unmarked contents
  rw [List.forall_mem_map]
  refine forall₂_congr fun line _ => ?_
  unfold markKind?
  by_cases opens : lineContent line = m.opening
  · simp [opens]
  · by_cases closes : lineContent line = m.closing
    · rw [closes] at opens
      simp [closes, opens]
    · simp [opens, closes]

/-- A body without markers has none when it is put between them. -/
theorem Unmarked.ended {body : Bytes} (h : Unmarked m (lines body)) :
    Unmarked m (lines (ended body)) := by
  rw [unmarked_iff, contents_ended]
  exact unmarked_iff.mp h

/-! ## Texts around a body -/

/-- The front of a cut text ends with the line feed of the opening line. -/
theorem Cut.getLast?_front (cut : Cut m t front inner back) :
    front.getLast? = some (byte '\n') := by
  obtain ⟨before, opening, inside, closing, after, equal, rfl, -⟩ := cut.marked
  rcases (cut.lines_with (Ended.ended [])).1 with empty | last
  · -- The opening line has a byte at least.
    have split : lines t = (before ++ [opening]) ++ (inside ++ closing :: after) := by
      rw [equal]
      simp
    obtain ⟨-, kept, -⟩ := lines_split split (by simp)
    rw [empty] at kept
    simp [lines] at kept
  · exact last

theorem Cut.ended_inner (cut : Cut m t front inner back) : Ended inner := by
  obtain ⟨before, opening, inside, closing, after, equal, -, rfl, -⟩ := cut.marked
  have split : lines t = (before ++ [opening]) ++ (inside ++ closing :: after) := by
    rw [equal]
    simp
  obtain ⟨-, -, rest⟩ := lines_split split (by simp)
  exact (lines_split rest (by simp)).1

/-- A text that is put together around lines without markers is cut around these lines. -/
theorem Cut.locate_between {other : Bytes} (cut : Cut m t front inner back) (ends : Ended other)
    (plain : Unmarked m (lines other)) :
    locate (front ++ other ++ back) m = .ok ⟨front.length, front.length + other.length⟩ := by
  obtain ⟨start, next, equal⟩ := cut.marks_between ends
  rw [locate_eq_of_marks, equal, marks_of_unmarked plain]
  rfl

/-- A text that is put together around a body carries what its parts carry. -/
theorem Cut.carries_between (cut : Cut m t front inner back) (body schemaName : Bytes) :
    carries m (front ++ ended body ++ back) schemaName =
      (carries m front schemaName || carries m body schemaName || carries m back schemaName) := by
  have ends := (cut.lines_with (Ended.ended body)).1
  simp only [carries_eq, contents_append (ends.append (Ended.ended body)), contents_append ends,
    contents_ended]
  simp [Bool.or_assoc]

/-! ## Merging -/

theorem merge_of_locate {u schemaName body : Bytes} {r : Region} (found : locate u m = .ok r) :
    merge m (some u) schemaName body =
      if carries m u schemaName then .ok (splice u r body) else .error .markerConflict := by
  rw [merge, found]
  rfl

/-- Merging a body without markers into a text replaces what stands between its opening and its
closing line, and the body is then what stands between them. So whatever is put there next gives the
same text as if it had been put into the old one: merging the body again changes nothing, and the
last body decides. A merge is refused only under a name that neither a line outside the region nor
one of the body gives. -/
theorem merge_lens_laws {schemaName body new : Bytes} (plain : Unmarked m (lines body))
    (h : merge m (some t) schemaName body = .ok new) :
    ∃ front inner back, Cut m t front inner back ∧ front.getLast? = some (byte '\n') ∧
      new = front ++ ended body ++ back ∧
      locate t m = .ok ⟨front.length, front.length + inner.length⟩ ∧
      locate new m = .ok ⟨front.length, front.length + (ended body).length⟩ ∧
      (∀ r r', locate t m = .ok r → locate new m = .ok r' → ∀ other,
        splice new r' other = splice t r other) ∧
      (∀ other, merge m (some t) schemaName other = .ok (front ++ ended other ++ back)) ∧
      ∀ name, carries m new name =
          (carries m front name || carries m body name || carries m back name) ∧
        ∀ other, merge m (some new) name other =
          if carries m new name then .ok (front ++ ended other ++ back)
          else .error .markerConflict := by
  obtain ⟨own, r, found, rfl⟩ := merge_of_some h
  obtain ⟨inner, cut⟩ := cut_of_locate found
  generalize t.take r.start = front, t.drop r.stop = back at cut
  have ends : Ended front := (cut.lines_with (Ended.ended body)).1
  -- The old text is cut around what stood between the markers, and so is the new one.
  have whole := cut.whole
  obtain rfl : r = ⟨front.length, front.length + inner.length⟩ :=
    cut.locate_eq cut.ended_inner (whole ▸ found)
  have old : ∀ other, splice t ⟨front.length, front.length + inner.length⟩ other =
      front ++ ended other ++ back := fun other => by rw [whole, splice_between ends]
  have located := cut.locate_between (Ended.ended body) plain.ended
  rw [old]
  refine ⟨front, inner, back, cut, cut.getLast?_front, rfl, found, located, ?_, ?_, ?_⟩
  · intro r r' here there other
    rw [found] at here
    rw [located] at there
    cases here
    cases there
    rw [old, splice_between ends]
  · intro other
    rw [merge_of_locate found, if_pos own, old]
  · intro name
    refine ⟨cut.carries_between body name, fun other => ?_⟩
    rw [merge_of_locate located, splice_between ends]

/-- Markers of one byte. -/
def exMarkers : Markers := ⟨bytes "# ", bytes "<", bytes ">"⟩

/-- A file that the user has indented and written with carriage returns, and that ends in the
closing line without a line feed. -/
def exIndented : Bytes := bytes "mine\r\n# Pet\r\n\t<\r\nold\r\n  >"

/-- The file with a body in it that did not end in a line feed. -/
def exMerged : Bytes := bytes "mine\r\n# Pet\r\n\t<\r\nnew\n  >"

theorem merge_lens_laws_exIndented :
    Unmarked exMarkers (lines (bytes "new")) ∧
      merge exMarkers (some exIndented) (bytes "Pet") (bytes "new") = .ok exMerged ∧
      (∃ front inner back, Cut exMarkers exIndented front inner back ∧
        exMerged = front ++ ended (bytes "new") ++ back) ∧
      ∀ other, merge exMarkers (some exMerged) (bytes "Pet") other =
        merge exMarkers (some exIndented) (bytes "Pet") other := by
  have plain : Unmarked exMarkers (lines (bytes "new")) := unmarked_iff.mpr (by decide)
  have merged : merge exMarkers (some exIndented) (bytes "Pet") (bytes "new") = .ok exMerged := rfl
  obtain ⟨front, inner, back, cut, -, new, -, -, -, before, after⟩ := merge_lens_laws plain merged
  refine ⟨plain, merged, ⟨front, inner, back, cut, new⟩, fun other => ?_⟩
  have own : carries exMarkers exMerged (bytes "Pet") = true := rfl
  rw [before, (after _).2, if_pos own]

end Region

end HeaderForge
