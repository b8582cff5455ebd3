import HeaderForge.Proofs.Document.Cuts
import HeaderForge.Proofs.Files.Remerging
/-!
# Which texts have a region

A region is found where exactly one line of a text is the opening marker, exactly one is the closing
marker, and the opening one comes first. Other texts are refused, all for the same reason.

1. `LineAt` says what a line of a text is, and where it starts, without cutting the text into lines;
   `lineAt_iff` says the same of the lines that it is cut into.
2. `SoleLine` is a line that no other one says the same as.
3. `Region.WellMarked` and `Region.locate_exact`: the texts with a region, and where that is.
-/

namespace HeaderForge

/-! ## Lines at offsets -/

/-- A line without its line feed, the offset of its first byte and the offset behind it. It starts
where the text starts or after a line feed, and ends with a line feed or, if it is not empty, with
the text. -/
inductive LineAt (t : Bytes) : (start next : Nat) → (said : Bytes) → Prop
  | closed {before said after : Bytes} : t = before ++ said ++ byte '\n' :: after →
      Ended before → byte '\n' ∉ said →
      LineAt t before.length (before.length + said.length + 1) said
  | last {before said : Bytes} : t = before ++ said → said ≠ [] → Ended before →
      byte '\n' ∉ said → LineAt t before.length t.length said

/-- A line says the same with its line feed and without. -/
theorem lineContent_eq_trimLine {said : Bytes} (whole : byte '\n' ∉ said) :
    lineContent said = trimLine said := by
  unfold lineContent
  rw [dropEndWhile_eq_self fun b inside => ?_]
  simpa using fun same : b = byte '\n' => whole (same ▸ inside)

/-- A text without a line feed in it is a single line, unless it is empty. -/
theorem lines_open {said : Bytes} (some : said ≠ []) (whole : byte '\n' ∉ said) :
    lines said = [said] := by
  induction said with
  | nil => exact absurd rfl some
  | cons b said ih =>
    obtain ⟨other, later⟩ := not_or.mp (mt List.mem_cons.mpr whole)
    rw [lines, if_neg (by simpa using Ne.symm other)]
    cases said with
    | nil => rfl
    | cons c said => rw [ih (List.cons_ne_nil _ _) later]

theorem ne_nil_of_mem_lines {t line : Bytes} (h : line ∈ lines t) : line ≠ [] := by
  obtain ⟨before, after, split⟩ := List.append_of_mem h
  obtain ⟨-, -, rest⟩ := lines_split split (List.cons_ne_nil _ _)
  rintro rfl
  obtain ⟨alone, -⟩ := lines_head rest
  exact nomatch alone

/-- The lines at offsets are the lines that the text is cut into. -/
theorem lineAt_iff {t said : Bytes} {start next : Nat} :
    LineAt t start next said ↔ byte '\n' ∉ said ∧ ∃ before line after,
      lines t = before ++ line :: after ∧ (line = said ++ [byte '\n'] ∨ line = said ∧ after = []) ∧
      start = before.flatten.length ∧ next = start + line.length := by
  constructor
  · rintro (⟨split, ended, whole⟩ | ⟨split, some, ended, whole⟩)
    · next before after =>
      refine ⟨whole, lines before, said ++ [byte '\n'], lines after, ?_, .inl rfl, ?_, ?_⟩
      · have cut : t = before ++ ((said ++ [byte '\n']) ++ after) := by simp [split]
        rw [cut, lines_append ended, lines_append (Ended.feed said), lines_feed whole]
        rfl
      · rw [flatten_lines]
      · rw [List.length_append, List.length_singleton, Nat.add_assoc]
    · next before =>
      refine ⟨whole, lines before, said, [], ?_, .inr ⟨rfl, rfl⟩, ?_, ?_⟩
      · rw [split, lines_append ended, lines_open some whole]
      · rw [flatten_lines]
      · rw [split, List.length_append]
  · rintro ⟨whole, before, line, after, split, shape, rfl, rfl⟩
    obtain ⟨ended, -, -⟩ := lines_split split (List.cons_ne_nil _ _)
    have cut : t = before.flatten ++ line ++ after.flatten := by
      rw [← flatten_lines t, split]
      simp
    rcases shape with rfl | ⟨rfl, rfl⟩
    · rw [List.length_append, List.length_singleton, ← Nat.add_assoc]
      have closed : t = before.flatten ++ said ++ byte '\n' :: after.flatten := by simp [cut]
      exact .closed closed ended whole
    · have here : line ∈ lines t := split ▸ List.mem_append_right _ List.mem_cons_self
      rw [List.flatten_nil, List.append_nil] at cut
      rw [← List.length_append, ← cut]
      exact .last cut (ne_nil_of_mem_lines here) ended whole

/-- Every line of a text is one at an offset, and says there what it says as a line. -/
theorem lineAt_of_lines {t line : Bytes} {before after : List Bytes}
    (split : lines t = before ++ line :: after) :
    ∃ said, LineAt t before.flatten.length (before.flatten.length + line.length) said ∧
      trimLine said = lineContent line := by
  have member : line ∈ lines t := split ▸ List.mem_append_right _ List.mem_cons_self
  obtain ⟨said, whole, shape⟩ := line_shape member
  refine ⟨said, lineAt_iff.mpr ⟨whole, before, line, after, split, ?_, rfl, rfl⟩, ?_⟩
  · rcases shape with rfl | closed
    · -- A line without a line feed is the last one.
      obtain ⟨-, -, rest⟩ := lines_split split (List.cons_ne_nil _ _)
      refine .inr ⟨rfl, Classical.byContradiction fun more => ?_⟩
      have last := (lines_head rest).2.2 more
      exact whole (List.mem_of_getLast? last)
    · exact .inl closed
  · rcases shape with rfl | rfl
    · exact (lineContent_eq_trimLine whole).symm
    · rw [lineContent_feed, lineContent_eq_trimLine whole]

/-- What a line at an offset says, it says as a line of the text. -/
theorem lines_of_lineAt {t said : Bytes} {start next : Nat} (h : LineAt t start next said) :
    ∃ before line after, lines t = before ++ line :: after ∧ lineContent line = trimLine said ∧
      start = before.flatten.length ∧ next = before.flatten.length + line.length := by
  obtain ⟨whole, before, line, after, split, shape, rfl, rfl⟩ := lineAt_iff.mp h
  refine ⟨before, line, after, split, ?_, rfl, rfl⟩
  rcases shape with rfl | ⟨rfl, -⟩
  · rw [lineContent_feed, lineContent_eq_trimLine whole]
  · exact lineContent_eq_trimLine whole

/-- A line says what is looked for, and no line that starts elsewhere does. Blanks around it and
carriage returns at its end do not count. -/
structure SoleLine (t wanted : Bytes) (start next : Nat) : Prop where
  there : ∃ said, LineAt t start next said ∧ trimLine said = wanted
  sole : ∀ start' next' said, LineAt t start' next' said → trimLine said = wanted → start' = start

/-- Two places in a list, one of them before, at or after the other one. -/
theorem eq_or_mem_of_splits {α : Type} {before after front back : List α} {x y : α}
    (h : before ++ x :: after = front ++ y :: back) : before = front ∨ x ∈ front ∨ x ∈ back := by
  rcases List.append_eq_append_iff.mp h with ⟨more, rfl, rest⟩ | ⟨more, rfl, rest⟩
  · rcases List.cons_eq_append_iff.mp rest with ⟨rfl, -⟩ | ⟨more, rfl, -⟩
    · exact .inl (List.append_nil _).symm
    · exact .inr (.inl (List.mem_append_right _ List.mem_cons_self))
  · rcases List.cons_eq_append_iff.mp rest with ⟨rfl, -⟩ | ⟨more, rfl, rfl⟩
    · exact .inl (List.append_nil _)
    · exact .inr (.inr (List.mem_append_right _ List.mem_cons_self))

theorem soleLine_iff {t wanted : Bytes} {start next : Nat} :
    SoleLine t wanted start next ↔ ∃ before line after, lines t = before ++ line :: after ∧
      lineContent line = wanted ∧ start = before.flatten.length ∧
      next = before.flatten.length + line.length ∧
      ∀ other, other ∈ before ∨ other ∈ after → lineContent other ≠ wanted := by
  constructor
  · rintro ⟨⟨said, here, text⟩, sole⟩
    obtain ⟨before, line, after, split, content, rfl, rfl⟩ := lines_of_lineAt here
    refine ⟨before, line, after, split, content.trans text, rfl, rfl, ?_⟩
    intro other elsewhere same
    -- The other line starts elsewhere, as no line is empty.
    rcases elsewhere with earlier | later
    · obtain ⟨front, back, rfl⟩ := List.append_of_mem earlier
      rw [List.append_assoc, List.cons_append] at split
      obtain ⟨said', there, text'⟩ := lineAt_of_lines split
      have start := sole _ _ said' there (text'.trans same)
      have some := List.length_pos_of_ne_nil
        (ne_nil_of_mem_lines (split ▸ List.mem_append_right front List.mem_cons_self))
      rw [List.flatten_append, List.flatten_cons, List.length_append, List.length_append] at start
      omega
    · obtain ⟨front, back, rfl⟩ := List.append_of_mem later
      have some := List.length_pos_of_ne_nil
        (ne_nil_of_mem_lines (split ▸ List.mem_append_right before List.mem_cons_self))
      rw [← List.cons_append, ← List.append_assoc] at split
      obtain ⟨said', there, text'⟩ := lineAt_of_lines split
      have start := sole _ _ said' there (text'.trans same)
      rw [List.flatten_append, List.flatten_cons, List.length_append, List.length_append] at start
      omega
  · rintro ⟨before, line, after, split, content, rfl, rfl, others⟩
    obtain ⟨said, here, text⟩ := lineAt_of_lines split
    refine ⟨⟨said, here, text.trans content⟩, fun start' next' said' there text' => ?_⟩
    obtain ⟨before', line', after', split', content', rfl, -⟩ := lines_of_lineAt there
    rcases eq_or_mem_of_splits (split'.symm.trans split) with same | elsewhere
    · rw [same]
    · exact absurd (content'.trans text') (others line' elsewhere)

namespace Region

variable {m : Markers} {t line : Bytes}

/-! ## Marker lines -/

theorem markKind?_eq_opening_iff :
    markKind? m line = some .opening ↔ lineContent line = m.opening := by
  unfold markKind?
  split
  · next opens => simp [opens]
  · next other => split <;> simp [other]

theorem markKind?_eq_closing_iff : markKind? m line = some .closing ↔
    lineContent line ≠ m.opening ∧ lineContent line = m.closing := by
  unfold markKind?
  split
  · next opens => simp [opens]
  · next other =>
    split
    · next closes => exact iff_of_true rfl ⟨other, closes⟩
    · next neither => simp [neither]

theorem markKind?_eq_none_iff : markKind? m line = none ↔
    lineContent line ≠ m.opening ∧ lineContent line ≠ m.closing := by
  unfold markKind?
  split
  · next opens => simp [opens]
  · next other =>
    split
    · next closes => simp [closes]
    · next neither => simp [other, neither]

/-- A region stands between the only two marker lines. -/
theorem locate_eq_ok_iff {r : Region} : locate t m = .ok r ↔
    ∃ before opening inside closing after,
      lines t = before ++ opening :: (inside ++ closing :: after) ∧
      markKind? m opening = some .opening ∧ markKind? m closing = some .closing ∧
      Unmarked m before ∧ Unmarked m inside ∧ Unmarked m after ∧
      r = ⟨before.flatten.length + opening.length, (before ++ opening :: inside).flatten.length⟩ := by
  constructor
  · intro found
    obtain ⟨inner, cut⟩ := cut_of_locate found
    have whole := cut.whole
    have here := cut.locate_eq cut.ended_inner (whole ▸ found)
    obtain ⟨before, opening, inside, closing, after, split, front, rfl, -, kind, kind', plain⟩ :=
      cut.marked
    refine ⟨before, opening, inside, closing, after, split, kind, kind', plain.1, plain.2.1,
      plain.2.2, ?_⟩
    rw [here, front]
    simp [Nat.add_assoc]
  · rintro ⟨before, opening, inside, closing, after, split, kind, kind', plain, inner, last, rfl⟩
    rw [locate_eq_of_marks, split, marks_append, marks_of_unmarked plain, List.nil_append, marks, kind]
    dsimp only
    rw [marks_append, marks_of_unmarked inner, List.nil_append, marks, kind']
    dsimp only
    rw [marks_of_unmarked last]
    simp [Nat.add_assoc]

theorem locate_error {kind : FailureKind} (h : locate t m = .error kind) :
    kind = .markerConflict := by
  rw [locate_eq_of_marks] at h
  split at h
  · exact nomatch h
  · exact (Except.error.inj h).symm

/-! ## The result -/

/-- A text with exactly one opening line and exactly one closing line, which comes later. Its region
starts behind the opening line and ends where the closing line starts. -/
inductive WellMarked (m : Markers) (t : Bytes) : Region → Prop
  | between {start next start' next' : Nat} : SoleLine t m.opening start next →
      SoleLine t m.closing start' next' → start < start' → WellMarked m t ⟨next, start'⟩

theorem wellMarked_of_locate {r : Region} (h : locate t m = .ok r) : WellMarked m t r := by
  obtain ⟨before, opening, inside, closing, after, split, kind, kind', plain, inner, last, rfl⟩ :=
    locate_eq_ok_iff.mp h
  have opens := markKind?_eq_opening_iff.mp kind
  obtain ⟨other, closes⟩ := markKind?_eq_closing_iff.mp kind'
  have differ : m.closing ≠ m.opening := closes ▸ other
  have some := List.length_pos_of_ne_nil
    (ne_nil_of_mem_lines (split ▸ List.mem_append_right before List.mem_cons_self))
  refine .between (soleLine_iff.mpr ⟨before, opening, _, split, opens, rfl, rfl, ?_⟩)
    (soleLine_iff.mpr ⟨before ++ opening :: inside, closing, after, ?_, closes, rfl, rfl, ?_⟩) ?_
  · rintro line (earlier | later)
    · exact (markKind?_eq_none_iff.mp (plain line earlier)).1
    · rcases List.mem_append.mp later with between | later
      · exact (markKind?_eq_none_iff.mp (inner line between)).1
      · rcases List.mem_cons.mp later with rfl | later
        · exact other
        · exact (markKind?_eq_none_iff.mp (last line later)).1
  · simp [split]
  · rintro line (earlier | later)
    · rcases List.mem_append.mp earlier with earlier | earlier
      · exact (markKind?_eq_none_iff.mp (plain line earlier)).2
      · rcases List.mem_cons.mp earlier with rfl | between
        · exact opens ▸ differ.symm
        · exact (markKind?_eq_none_iff.mp (inner line between)).2
    · exact (markKind?_eq_none_iff.mp (last line later)).2
  · rw [List.flatten_append, List.flatten_cons, List.length_append, List.length_append]
    omega

theorem locate_of_wellMarked {r : Region} (h : WellMarked m t r) : locate t m = .ok r := by
  obtain ⟨soleOpening, soleClosing, order⟩ := h
  obtain ⟨before, opening, rest, split, opens, rfl, rfl, noOpening⟩ := soleLine_iff.mp soleOpening
  obtain ⟨front, closing, after, split', closes, rfl, rfl, noClosing⟩ :=
    soleLine_iff.mp soleClosing
  -- The closing line stands behind the opening one.
  obtain ⟨inside, rfl, rfl⟩ : ∃ inside, front = before ++ opening :: inside ∧
      rest = inside ++ closing :: after := by
    rcases List.append_eq_append_iff.mp (split.symm.trans split') with
      ⟨more, rfl, behind⟩ | ⟨more, rfl, -⟩
    · rcases List.cons_eq_append_iff.mp behind with ⟨rfl, -⟩ | ⟨inside, rfl, here⟩
      · simp at order
      · exact ⟨inside, rfl, here⟩
    · rw [List.flatten_append, List.length_append] at order
      omega
  have member : closing ∈ before ∨ closing ∈ inside ++ closing :: after :=
    .inr (List.mem_append_right _ List.mem_cons_self)
  have unmarked : ∀ {ls : List Bytes}, (∀ line, line ∈ ls →
      (line ∈ before ∨ line ∈ inside ++ closing :: after) ∧
        (line ∈ before ++ opening :: inside ∨ line ∈ after)) → Unmarked m ls :=
    fun apart line inLs => markKind?_eq_none_iff.mpr
      ⟨noOpening line (apart line inLs).1, noClosing line (apart line inLs).2⟩
  refine locate_eq_ok_iff.mpr ⟨before, opening, inside, closing, after, split,
    markKind?_eq_opening_iff.mpr opens,
    markKind?_eq_closing_iff.mpr ⟨noOpening closing member, closes⟩, unmarked fun line h => ?_,
    unmarked fun line h => ?_, unmarked fun line h => ?_, rfl⟩
  · exact ⟨.inl h, .inl (List.mem_append_left _ h)⟩
  · exact ⟨.inr (List.mem_append_left _ h),
      .inl (List.mem_append_right _ (List.mem_cons_of_mem _ h))⟩
  · exact ⟨.inr (List.mem_append_right _ (List.mem_cons_of_mem _ h)), .inr h⟩

/-- The texts in which a region is found are exactly the well-marked ones, and it is the one between
their markers: it starts behind a line feed, and its ends stand in order in the text. Every other
text is refused as a conflict of markers. -/
theorem locate_exact (m : Markers) (t : Bytes) :
    (∀ r, locate t m = .ok r ↔ WellMarked m t r) ∧
    (∀ r, WellMarked m t r → (t.take r.start).getLast? = some (byte '\n') ∧
      r.start ≤ r.stop ∧ r.stop ≤ t.length) ∧
    ((∀ r, ¬ WellMarked m t r) → locate t m = .error .markerConflict) := by
  refine ⟨fun r => ⟨wellMarked_of_locate, locate_of_wellMarked⟩, fun r marked => ?_, fun none => ?_⟩
  · have found := locate_of_wellMarked marked
    obtain ⟨inner, cut⟩ := cut_of_locate found
    have whole := cut.whole
    have ends := cut.locate_eq cut.ended_inner (whole ▸ found)
    have counts := congrArg List.length whole
    rw [List.length_append, List.length_append] at counts
    refine ⟨cut.getLast?_front, ?_, ?_⟩
    · rw [ends]
      exact Nat.le_add_right _ _
    · rw [ends]
      dsimp only
      omega
  · cases found : locate t m with
    | ok r => exact absurd (wellMarked_of_locate found) (none r)
    | error kind => rw [locate_error found]

end Region

end HeaderForge
