import HeaderForge.Region
/-!
# Laws of marked regions

A text that a merge accepts is cut by its marker lines into a front, an inner part and a back, and
the merge replaces the inner part only. What it leaves can be merged again, and then it is cut at
the same places, whoever merges it.

1. `lines_append` and `lines_split` cut texts where a line ends.
2. `Region.marks` lists the marker lines, and `Region.locate_eq_of_marks` says what the scan for
   them comes to. `Region.Cut.marks_between` is what the marker lines of a cut text are.
3. `Region.Rewritten` is what merges do to a text that is there, one or many of them.
-/

namespace HeaderForge

/-! ## Lines -/

/-- A text that ends in a line feed, unless it is empty. -/
def Ended (t : Bytes) : Prop := t = [] ∨ t.getLast? = some (byte '\n')

theorem ended_of_ended {t : Bytes} (h : Ended t) : ended t = t := by
  unfold ended
  rcases h with rfl | last
  · rfl
  · simp [last]

theorem Ended.ended (t : Bytes) : Ended (ended t) := by
  unfold HeaderForge.ended
  split
  · exact Or.inl rfl
  · next b last =>
    split
    · next feed => exact Or.inr (by rw [last, beq_iff_eq.mp feed])
    · exact Or.inr (by simp)

theorem Ended.append {t u : Bytes} (ht : Ended t) (hu : Ended u) : Ended (t ++ u) := by
  rcases hu with rfl | last
  · rwa [List.append_nil]
  · exact Or.inr (by rw [List.getLast?_append, last]; rfl)

theorem Ended.feed (t : Bytes) : Ended (t ++ [byte '\n']) := Or.inr List.getLast?_concat

theorem flatten_lines (t : Bytes) : (lines t).flatten = t := by
  induction t with
  | nil => rfl
  | cons b t ih =>
    unfold lines
    split
    · rw [List.flatten_cons, ih, List.singleton_append]
    · cases h : lines t with
      | nil =>
        rw [h] at ih
        simp [← ih]
      | cons line others =>
        rw [h] at ih
        simp [← ih]

theorem lines_eq_nil {t : Bytes} (h : lines t = []) : t = [] := by
  rw [← flatten_lines t, h]
  rfl

/-- Where a line ends, the lines of a text are those before and those after. -/
theorem lines_append {t : Bytes} (h : Ended t) (u : Bytes) : lines (t ++ u) = lines t ++ lines u := by
  induction t with
  | nil => rfl
  | cons b t ih =>
    cases t with
    | nil =>
      have feed : b = byte '\n' := by simpa [Ended] using h
      simp [lines, feed]
    | cons c t =>
      have later : Ended (c :: t) := by simpa [Ended] using h
      rw [List.cons_append, lines, lines, ih later]
      split
      · rfl
      · cases equal : lines (c :: t) with
        | nil => exact nomatch lines_eq_nil equal
        | cons line others => rfl

theorem lines_head {t line : Bytes} {rest : List Bytes} (h : lines t = line :: rest) :
    lines line = [line] ∧ lines rest.flatten = rest ∧
      (rest ≠ [] → line.getLast? = some (byte '\n')) := by
  induction t generalizing line rest with
  | nil => exact nomatch h
  | cons b t ih =>
    -- A feed is a line of its own here, and any other byte belongs to the line that follows.
    unfold lines at h
    split at h
    · next feed =>
      obtain ⟨rfl, rfl⟩ := List.cons.inj h
      refine ⟨?_, congrArg lines (flatten_lines t), fun _ => ?_⟩
      · simp [lines, feed]
      · simp [beq_iff_eq.mp feed]
    · next plain =>
      cases equal : lines t with
      | nil =>
        rw [equal] at h
        obtain ⟨rfl, rfl⟩ := List.cons.inj h
        exact ⟨by simp [lines, plain], rfl, fun more => absurd rfl more⟩
      | cons first others =>
        rw [equal] at h
        obtain ⟨rfl, rfl⟩ := List.cons.inj h
        obtain ⟨alone, rest, last⟩ := ih equal
        refine ⟨by simp [lines, plain, alone], rest, fun more => ?_⟩
        have ends := last more
        cases first with
        | nil => exact nomatch ends
        | cons c first => rwa [List.getLast?_cons_cons]

/-- Every cut of the lines of a text is a cut of the text where a line ends. -/
theorem lines_split {t : Bytes} {before after : List Bytes} (h : lines t = before ++ after)
    (more : after ≠ []) :
    Ended before.flatten ∧ lines before.flatten = before ∧ lines after.flatten = after := by
  induction before generalizing t with
  | nil => exact ⟨Or.inl rfl, rfl, by rw [← List.nil_append after, ← h, flatten_lines]⟩
  | cons line before ih =>
    obtain ⟨alone, rest, last⟩ := lines_head h
    obtain ⟨ends, front, back⟩ := ih rest
    have endsLine : Ended line := Or.inr (last (by simp [more]))
    refine ⟨?_, ?_, back⟩
    · exact endsLine.append ends
    · rw [List.flatten_cons, lines_append endsLine, alone, front]
      rfl

inductive MarkKind where
  | opening
  | closing
deriving DecidableEq, Repr

/-- A line that is a marker, from its first byte to the first byte of the next line. -/
structure Mark where
  kind : MarkKind
  start : Nat
  next : Nat
deriving DecidableEq, Repr

namespace Region

variable {m : Markers}

/-! ## Marker lines -/

def markKind? (m : Markers) (line : Bytes) : Option MarkKind :=
  if lineContent line = m.opening then some .opening
  else if lineContent line = m.closing then some .closing
  else none

/-- The marker lines among lines that begin at an offset. -/
def marks (m : Markers) : (offset : Nat) → List Bytes → List Mark
  | _, [] => []
  | offset, line :: rest =>
    let others := marks m (offset + line.length) rest
    match markKind? m line with
    | some kind => ⟨kind, offset, offset + line.length⟩ :: others
    | none => others

/-- What a scan makes of the marker lines that come next. -/
def fill (opening closing : Option LineSpan) :
    List Mark → Except FailureKind (Option LineSpan × Option LineSpan)
  | [] => .ok (opening, closing)
  | ⟨.opening, start, next⟩ :: rest =>
    if opening.isSome then .error .markerConflict else fill (some ⟨start, next⟩) closing rest
  | ⟨.closing, start, next⟩ :: rest =>
    if closing.isSome || opening.isNone then .error .markerConflict
    else fill opening (some ⟨start, next⟩) rest

/-- A scan depends on the marker lines only. -/
theorem scan_eq_fill (m : Markers) (offset : Nat) (opening closing : Option LineSpan)
    (ls : List Bytes) :
    scan m offset opening closing ls = fill opening closing (marks m offset ls) := by
  induction ls generalizing offset opening closing with
  | nil => rfl
  | cons line rest ih =>
    unfold scan marks markKind?
    dsimp only
    split
    · simp only [fill, ih]
    · split
      · simp only [fill, ih]
      · exact ih _ _ _

/-- The part between the markers is found where the only marker lines are one opening line and
then one closing line. -/
theorem locate_eq_of_marks (t : Bytes) (m : Markers) :
    locate t m =
      match marks m 0 (lines t) with
      | [⟨.opening, _, next⟩, ⟨.closing, start, _⟩] => .ok ⟨next, start⟩
      | _ => .error .markerConflict := by
  unfold locate
  rw [scan_eq_fill]
  generalize marks m 0 (lines t) = all
  -- Any third marker line comes after both slots are taken, so it is refused.
  match all with
  | [] => rfl
  | ⟨.closing, _, _⟩ :: _ => rfl
  | [⟨.opening, _, _⟩] => rfl
  | ⟨.opening, _, _⟩ :: ⟨.opening, _, _⟩ :: _ => rfl
  | [⟨.opening, _, _⟩, ⟨.closing, _, _⟩] => rfl
  | ⟨.opening, _, _⟩ :: ⟨.closing, _, _⟩ :: ⟨.opening, _, _⟩ :: _ => rfl
  | ⟨.opening, _, _⟩ :: ⟨.closing, _, _⟩ :: ⟨.closing, _, _⟩ :: _ => rfl

/-- Lines none of which is a marker. -/
def Unmarked (m : Markers) (ls : List Bytes) : Prop := ∀ line, line ∈ ls → markKind? m line = none

theorem marks_append (offset : Nat) (before after : List Bytes) :
    marks m offset (before ++ after) =
      marks m offset before ++ marks m (offset + before.flatten.length) after := by
  induction before generalizing offset with
  | nil => rfl
  | cons line before ih =>
    simp only [List.cons_append, marks, ih, List.flatten_cons, List.length_append, Nat.add_assoc]
    split <;> rfl

theorem marks_of_unmarked {ls : List Bytes} (h : Unmarked m ls) (offset : Nat) :
    marks m offset ls = [] := by
  induction ls generalizing offset with
  | nil => rfl
  | cons line ls ih =>
    have later : Unmarked m ls := fun l hl => h l (List.mem_cons_of_mem _ hl)
    simp only [marks, h line List.mem_cons_self, ih later]

theorem unmarked_of_marks {offset : Nat} {ls : List Bytes} (h : marks m offset ls = []) :
    Unmarked m ls := by
  induction ls generalizing offset with
  | nil => exact fun line hline => nomatch hline
  | cons line ls ih =>
    unfold marks at h
    split at h
    · exact nomatch h
    · next none =>
      intro l hl
      cases List.mem_cons.mp hl with
      | inl here => rwa [here]
      | inr later => exact ih h l later

/-- The first marker is a line after lines that are none. -/
theorem marks_eq_cons {offset : Nat} {ls : List Bytes} {mark : Mark} {others : List Mark}
    (h : marks m offset ls = mark :: others) :
    ∃ before line after, ls = before ++ line :: after ∧ Unmarked m before ∧
      markKind? m line = some mark.kind ∧ mark.start = offset + before.flatten.length ∧
      mark.next = mark.start + line.length ∧ marks m mark.next after = others := by
  induction ls generalizing offset with
  | nil => exact nomatch h
  | cons line ls ih =>
    unfold marks at h
    split at h
    · next kind found =>
      obtain ⟨rfl, rfl⟩ := List.cons.inj h
      exact ⟨[], line, ls, rfl, List.forall_mem_nil _, found, rfl, rfl, rfl⟩
    · next none =>
      obtain ⟨before, marker, after, rfl, plain, kind, start, next, rest⟩ := ih h
      refine ⟨line :: before, marker, after, rfl, ?_, kind, ?_, next, rest⟩
      · intro l hl
        cases List.mem_cons.mp hl with
        | inl here => rwa [here]
        | inr later => exact plain l later
      · rw [start, List.flatten_cons, List.length_append, Nat.add_assoc]

/-! ## Cut texts -/

/-- A text with one opening line and after it one closing line, cut into what ends with the opening
line, what stands between the two, and what starts with the closing line. -/
structure Cut (m : Markers) (t front inner back : Bytes) : Prop where
  whole : t = front ++ inner ++ back
  marked : ∃ before opening inside closing after,
    lines t = before ++ opening :: (inside ++ closing :: after) ∧
      front = (before ++ [opening]).flatten ∧ inner = inside.flatten ∧
      back = (closing :: after).flatten ∧ markKind? m opening = some .opening ∧
      markKind? m closing = some .closing ∧ Unmarked m before ∧ Unmarked m inside ∧ Unmarked m after

theorem cut_of_locate {t : Bytes} {r : Region} (h : locate t m = .ok r) :
    ∃ inner, Cut m t (t.take r.start) inner (t.drop r.stop) := by
  rw [locate_eq_of_marks] at h
  split at h
  · next _ start next stop _ found =>
    cases h
    obtain ⟨before, opening, rest, equal, plain, kind, hstart, hnext, others⟩ := marks_eq_cons found
    obtain ⟨inside, closing, after, rfl, inner, kind', hstop, hlast, last⟩ := marks_eq_cons others
    -- There are no other marks, so no other line is a marker.
    have whole : t = (before ++ [opening]).flatten ++ inside.flatten ++ (closing :: after).flatten := by
      rw [← flatten_lines t, equal]
      simp
    have front : t.take next = (before ++ [opening]).flatten := by
      rw [whole, List.append_assoc, List.take_left' (by simp_all)]
    have back : t.drop stop = (closing :: after).flatten := by
      rw [whole, List.drop_left' (by simp_all; omega)]
    refine ⟨inside.flatten, ?_, before, opening, inside, closing, after, equal, ?_⟩
    · rw [front, back]
      exact whole
    · exact ⟨front, rfl, back, kind, kind', plain, inner, unmarked_of_marks last⟩
  · exact nomatch h

/-- The front of a cut text ends in a line feed, so whatever ends in one can stand after it. -/
theorem Cut.lines_with {t front inner back other : Bytes} (cut : Cut m t front inner back)
    (ends : Ended other) :
    Ended front ∧ lines (front ++ other ++ back) = lines front ++ lines other ++ lines back := by
  obtain ⟨before, opening, inside, closing, after, equal, rfl, -, rfl, -⟩ := cut.marked
  have first : lines t = (before ++ [opening]) ++ (inside ++ closing :: after) := by
    rw [equal]
    simp
  obtain ⟨endsFront, -, -⟩ := lines_split first (by simp)
  exact ⟨endsFront, by rw [lines_append (endsFront.append ends), lines_append endsFront]⟩

/-- The markers of a text that is put together from the front and the back of a cut one are the two
that were there, and those that stand between them. -/
theorem Cut.marks_between {t front inner back other : Bytes} (cut : Cut m t front inner back)
    (ends : Ended other) :
    ∃ start next, marks m 0 (lines (front ++ other ++ back)) =
      ⟨.opening, start, front.length⟩ :: marks m front.length (lines other) ++
        [⟨.closing, front.length + other.length, next⟩] := by
  obtain ⟨-, equal⟩ := cut.lines_with ends
  obtain ⟨before, opening, inside, closing, after, split, rfl, -, rfl, kind, kind', plain, -, last⟩ :=
    cut.marked
  obtain ⟨-, front, rest⟩ : _ ∧ lines (before ++ [opening]).flatten = before ++ [opening] ∧ _ :=
    lines_split (show lines t = (before ++ [opening]) ++ (inside ++ closing :: after) by
      rw [split]; simp) (by simp)
  obtain ⟨-, -, back⟩ := lines_split rest (by simp)
  rw [equal, front, back, marks_append, marks_append, marks_append]
  refine ⟨before.flatten.length, ?_⟩
  simp only [marks_of_unmarked plain, marks, kind, kind', marks_of_unmarked last]
  simp [flatten_lines, Nat.add_assoc]

/-- Wherever a text that is put together like this is cut, it is cut at the same places. -/
theorem Cut.locate_eq {t front inner back other : Bytes} {r : Region}
    (cut : Cut m t front inner back) (ends : Ended other)
    (h : locate (front ++ other ++ back) m = .ok r) :
    r = ⟨front.length, front.length + other.length⟩ := by
  obtain ⟨start, next, equal⟩ := cut.marks_between ends
  rw [locate_eq_of_marks, equal] at h
  cases between : marks m front.length (lines other) with
  | nil =>
    rw [between] at h
    cases h
    rfl
  | cons mark others =>
    rw [between] at h
    cases others <;> simp at h

/-! ## Merging -/

theorem take_between (front other back : Bytes) :
    (front ++ other ++ back).take front.length = front := by
  rw [List.append_assoc, List.take_left]

theorem drop_between (front other back : Bytes) :
    (front ++ other ++ back).drop (front.length + other.length) = back := by
  rw [← List.length_append, List.drop_left]

/-- What is put between a front and a back depends on nothing that was there. -/
theorem splice_between {front other back : Bytes} (ends : Ended front) (body : Bytes) :
    splice (front ++ other ++ back) ⟨front.length, front.length + other.length⟩ body =
      front ++ ended body ++ back := by
  simp only [splice, take_between, drop_between, ended_of_ended ends]

/-- What a merge into a text does: the text has to say that it belongs to the schema and has to be
cut by its markers, and what stands between them is replaced. -/
theorem merge_of_some {t name body new : Bytes} (h : merge m (some t) name body = .ok new) :
    carries m t name = true ∧ ∃ r, locate t m = .ok r ∧ new = splice t r body := by
  rw [merge] at h
  split at h
  · next own =>
    cases found : locate t m with
    | error kind =>
      rw [found] at h
      exact nomatch h
    | ok r =>
      rw [found] at h
      cases h
      exact ⟨own, r, rfl, rfl⟩
  · exact nomatch h

/-- An empty text says of no schema that it belongs to it. -/
theorem ne_nil_of_carries {t name : Bytes} (own : carries m t name = true) : t ≠ [] := by
  rintro rfl
  exact nomatch own

/-- So nothing is merged into it. -/
theorem ne_nil_of_merge {t name body new : Bytes} (h : merge m (some t) name body = .ok new) :
    t ≠ [] :=
  ne_nil_of_carries (merge_of_some h).1

/-- A text that comes from another one by changing what stands between its markers at most. -/
def Rewritten (m : Markers) (t new : Bytes) : Prop :=
  ∃ front inner back other, Cut m t front inner back ∧ Ended other ∧ new = front ++ other ++ back

theorem rewritten_of_merge {t name body new : Bytes} (h : merge m (some t) name body = .ok new) :
    Rewritten m t new := by
  obtain ⟨-, r, found, rfl⟩ := merge_of_some h
  obtain ⟨inner, cut⟩ := cut_of_locate found
  have ends := (cut.lines_with (Ended.ended body)).1
  refine ⟨_, inner, _, ended body, cut, Ended.ended body, ?_⟩
  rw [splice, ended_of_ended ends]

/-- A text that was rewritten is rewritten at the same places again, under whatever name. -/
theorem Rewritten.merge {t u name body new : Bytes} (before : Rewritten m t u)
    (h : merge m (some u) name body = .ok new) : Rewritten m t new := by
  obtain ⟨front, inner, back, other, cut, ends, rfl⟩ := before
  obtain ⟨-, r, found, rfl⟩ := merge_of_some h
  cases cut.locate_eq ends found
  refine ⟨front, inner, back, ended body, cut, Ended.ended body, ?_⟩
  exact splice_between (cut.lines_with ends).1 body

end Region

end HeaderForge
