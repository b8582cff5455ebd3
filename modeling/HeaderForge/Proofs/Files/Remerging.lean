import HeaderForge.Proofs.Files.Repeating
import HeaderForge.Proofs.Naming
import HeaderForge.Schema.Index
/-!
# Merging into what was merged

The file of a schema is written run after run, and each run looks for the schema's name in it first.
The line with the name is put together from whatever bytes the name has, but it is read without the
blanks at its end, and a merge replaces all that stands in the region, lines with names included.

1. `content_shape`: what a line can say at all, and `Region.legible_iff`: the names it can give.
2. `Region.Outside`: a text that keeps its name whatever is put in its region.
3. `Region.merge_of_anchored`: a merge keeps that. `Region.merges_again_iff`: a text that was merged
   can be merged again exactly if the name stands outside the region or in the body, and where it
   stands outside, any number of merges succeed and the last body decides.
-/

namespace HeaderForge

/-! ## What a line can say -/

theorem of_getLast?_dropEndWhile {α : Type} {p : α → Bool} {xs : List α} {x : α}
    (h : (dropEndWhile p xs).getLast? = some x) : p x = false := by
  induction xs with
  | nil => exact nomatch h
  | cons y xs ih =>
    unfold dropEndWhile at h
    split at h
    · split at h
      · exact nomatch h
      · next kept =>
        cases h
        exact Bool.eq_false_iff.mpr kept
    · next more =>
      obtain ⟨z, zs, equal⟩ := List.exists_cons_of_ne_nil more
      rw [equal, List.getLast?_cons_cons, ← equal] at h
      exact ih h

theorem getLast?_of_dropWhile {α : Type} {p : α → Bool} {xs : List α} {x : α}
    (h : (xs.dropWhile p).getLast? = some x) : xs.getLast? = some x := by
  obtain ⟨front, split⟩ := List.dropWhile_suffix p (l := xs)
  rw [← split, List.getLast?_append, h]
  rfl

theorem line_shape {t line : Bytes} (h : line ∈ lines t) :
    ∃ said, byte '\n' ∉ said ∧ (line = said ∨ line = said ++ [byte '\n']) := by
  induction t generalizing line with
  | nil => exact nomatch h
  | cons b t ih =>
    unfold lines at h
    split at h
    · next feed =>
      rcases List.mem_cons.mp h with rfl | later
      · exact ⟨[], List.not_mem_nil, Or.inr (by rw [beq_iff_eq.mp feed]; rfl)⟩
      · exact ih later
    · next plain =>
      have other : byte '\n' ≠ b := fun same => plain (beq_iff_eq.mpr same.symm)
      cases equal : lines t with
      | nil =>
        rw [equal] at h
        obtain rfl := List.mem_singleton.mp h
        exact ⟨[b], by simpa using other, Or.inl rfl⟩
      | cons first others =>
        rw [equal] at h ih
        rcases List.mem_cons.mp h with rfl | later
        · obtain ⟨said, whole, shape⟩ := ih List.mem_cons_self
          refine ⟨b :: said, by simp [other, whole], ?_⟩
          exact shape.imp (congrArg (b :: ·)) (congrArg (b :: ·))
        · exact ih (List.mem_cons_of_mem _ later)

theorem content_shape {t text : Bytes} (h : text ∈ contents t) :
    byte '\n' ∉ text ∧
      ∀ b, text.getLast? = some b → isSpaceOrTab b = false ∧ b ≠ byte '\r' := by
  obtain ⟨line, member, rfl⟩ := List.mem_map.mp h
  obtain ⟨said, whole, shape⟩ := line_shape member
  constructor
  · intro feed
    have kept := mem_of_mem_dropEndWhile ((List.dropWhile_suffix _).subset feed)
    rcases shape with rfl | rfl
    · exact whole (mem_of_mem_dropEndWhile kept)
    · rw [dropEndWhile_append_singleton rfl] at kept
      exact whole (mem_of_mem_dropEndWhile kept)
  · intro b last
    have trimmed := of_getLast?_dropEndWhile (getLast?_of_dropWhile last)
    simpa [and_comm] using trimmed

namespace Region

variable {m : Markers} {t name body new : Bytes} {existing : Option Bytes}

/-! ## Names that can be read back -/

/-- The name of a schema that an identity line can give: it has no line feed in it, and it does not
end in a byte that is trimmed, so it is not empty either. -/
structure Legible (name : Bytes) : Prop where
  whole : byte '\n' ∉ name
  closed : ∃ b, name.getLast? = some b ∧ isSpaceOrTab b = false ∧ b ≠ byte '\r'

theorem legible_of_carries (h : carries Markers.standard t name = true) : Legible name := by
  rw [carries_eq, List.contains_iff_mem] at h
  obtain ⟨whole, last⟩ := content_shape h
  refine ⟨fun feed => whole (List.mem_append_right _ feed), ?_⟩
  cases ends : name.getLast? with
  | none =>
    -- The line of an empty name ends in the blank before the name.
    obtain rfl := List.getLast?_eq_none_iff.mp ends
    exact absurd (last (byte ' ') (by decide)).1 (by decide)
  | some b =>
    refine ⟨b, rfl, last b ?_⟩
    rw [Markers.identityLine, List.getLast?_append, ends]
    rfl

/-- The line that names a schema in a new file. -/
def nameLine (name : Bytes) : Bytes := Markers.standard.identityLine name ++ [byte '\n']

theorem ended_nameLine (name : Bytes) : Ended (nameLine name) := Ended.feed _

namespace Legible

theorem lines_nameLine (h : Legible name) : lines (nameLine name) = [nameLine name] := by
  refine lines_feed fun feed => ?_
  rcases List.mem_append.mp feed with front | inName
  · exact absurd front (by decide)
  · exact h.whole inName

theorem lineContent_nameLine (h : Legible name) :
    lineContent (nameLine name) = Markers.standard.identityLine name := by
  obtain ⟨b, last, solid, noReturn⟩ := h.closed
  obtain ⟨front, rfl⟩ : ∃ front, name = front ++ [b] :=
    ⟨_, (List.dropLast_append_getLast? b last).symm⟩
  have noFeed : (b == byte '\n') = false := by
    refine Bool.eq_false_iff.mpr fun feed => h.whole ?_
    rw [beq_iff_eq.mp feed]
    simp
  have kept : (b == byte '\r' || isSpaceOrTab b) = false := by simp [noReturn, solid]
  have split : Markers.standard.identityLine (front ++ [b]) =
      (Markers.standard.identity ++ front) ++ b :: [] := by simp [Markers.identityLine]
  rw [nameLine, lineContent_feed, lineContent, trimLine, split,
    dropEndWhile_append_cons (p := (· == byte '\n')) noFeed _ (List.forall_mem_nil _),
    dropEndWhile_append_cons (p := fun b => b == byte '\r' || isSpaceOrTab b) kept _
      (List.forall_mem_nil _)]
  rfl

theorem contents_nameLine (h : Legible name) :
    contents (nameLine name) = [Markers.standard.identityLine name] := by
  rw [contents, h.lines_nameLine, List.map_singleton, h.lineContent_nameLine]

end Legible

theorem legible_iff : Legible name ↔ ∃ t, carries Markers.standard t name = true := by
  constructor
  · intro h
    exact ⟨nameLine name, by rw [carries_eq, h.contents_nameLine]; simp⟩
  · exact fun ⟨_, carried⟩ => legible_of_carries carried

/-! ## Texts that keep their names -/

theorem Cut.unmarked_inner {front inner back : Bytes} (cut : Cut m t front inner back) :
    Unmarked m (lines inner) := by
  obtain ⟨before, opening, inside, closing, after, equal, -, rfl, -, -, -, -, plain, -⟩ := cut.marked
  have split : lines t = (before ++ [opening]) ++ (inside ++ closing :: after) := by
    rw [equal]
    simp
  obtain ⟨-, -, rest⟩ := lines_split split (by simp)
  rwa [(lines_split rest (by simp)).2.1]

/-- A text with a region that carries a name in a line outside it. -/
def Outside (m : Markers) (t name : Bytes) : Prop :=
  ∃ r, locate t m = .ok r ∧
    (carries m (t.take r.start) name = true ∨ carries m (t.drop r.stop) name = true)

theorem outside_iff : Outside m t name ↔ ∃ front inner back, Cut m t front inner back ∧
    (carries m front name = true ∨ carries m back name = true) := by
  constructor
  · rintro ⟨r, found, carried⟩
    obtain ⟨inner, cut⟩ := cut_of_locate found
    exact ⟨_, inner, _, cut, carried⟩
  · rintro ⟨front, inner, back, cut, carried⟩
    have found := cut.locate_between cut.ended_inner cut.unmarked_inner
    have taken := take_between front inner back
    have dropped := drop_between front inner back
    rw [← cut.whole] at found taken dropped
    exact ⟨_, found, by rwa [taken, dropped]⟩

theorem Outside.carries (h : Outside m t name) : carries m t name = true := by
  obtain ⟨front, inner, back, cut, carried⟩ := outside_iff.mp h
  have parts := cut.carries_between inner name
  rw [ended_of_ended cut.ended_inner, ← cut.whole] at parts
  rw [parts]
  rcases carried with inFront | inBack
  · simp [inFront]
  · simp [inBack]

/-- What comes of a merge is cut around the body, where the text was cut. -/
theorem Cut.between {front inner back : Bytes} (cut : Cut m t front inner back)
    (plain : Unmarked m (lines body)) :
    Cut m (front ++ ended body ++ back) front (ended body) back := by
  have found := cut.locate_between (Ended.ended body) plain.ended
  obtain ⟨inner', cut'⟩ := cut_of_locate found
  rw [take_between, drop_between] at cut'
  -- The front and the back leave room for one text between them.
  have inside : inner' = ended body := by
    have whole := cut'.whole
    rw [List.append_left_inj, List.append_right_inj] at whole
    exact whole.symm
  rwa [inside] at cut'

/-- The text of a new file is cut around its body. -/
theorem Legible.cut_composeNew (h : Legible name) (plain : Unmarked Markers.standard (lines body)) :
    Cut Markers.standard (composeNew Markers.standard name body) (nameLine name ++ openingLine)
      (ended body) closingLine := by
  have named : markKind? Markers.standard (nameLine name) = none := by
    rw [markKind?, h.lineContent_nameLine, if_neg, if_neg] <;>
      simp [Markers.identityLine, Markers.standard, bytes]
  have opened : lines openingLine = [openingLine] := by decide
  have closed : lines closingLine = [closingLine] := by decide
  have ends : Ended (nameLine name ++ openingLine) := (ended_nameLine name).append (Ended.feed _)
  refine ⟨composeNew_eq _ _ _, [nameLine name], openingLine, lines (ended body), closingLine, [],
    ?_⟩
  refine ⟨?_, by simp, (flatten_lines _).symm, by simp, by decide, by decide, ?_, plain.ended, ?_⟩
  · rw [composeNew_eq]
    show lines (nameLine name ++ openingLine ++ ended body ++ closingLine) = _
    rw [lines_append (ends.append (Ended.ended body)), lines_append ends,
      lines_append (ended_nameLine name), opened, closed, h.lines_nameLine]
    simp
  · exact List.forall_mem_singleton.mpr named
  · exact List.forall_mem_nil _

/-! ## Merges, one after the other -/

/-- What a schema's file can be for merges to go on for ever: it is not there, and the name can be
read back from a new file, or it carries the name outside its region. -/
def Anchored (existing : Option Bytes) (name : Bytes) : Prop :=
  match existing with
  | none => Legible name
  | some t => Outside Markers.standard t name

theorem merge_of_cut {front inner back : Bytes} (cut : Cut m t front inner back)
    (carried : carries m t name = true) (other : Bytes) :
    merge m (some t) name other = .ok (front ++ ended other ++ back) := by
  have found := cut.locate_between cut.ended_inner cut.unmarked_inner
  have replaced : splice (front ++ inner ++ back) ⟨front.length, front.length + inner.length⟩
      other = front ++ ended other ++ back := splice_between (cut.lines_with (Ended.ended other)).1 other
  rw [← cut.whole] at found replaced
  rw [merge_of_locate found, if_pos carried, replaced]

theorem Outside.merges (h : Outside m t name) (other : Bytes) :
    ∃ u, merge m (some t) name other = .ok u := by
  obtain ⟨front, inner, back, cut, -⟩ := outside_iff.mp h
  exact ⟨_, merge_of_cut cut h.carries other⟩

/-- One merge keeps the name, and what is merged next goes where the body went. -/
theorem merge_of_anchored (anchored : Anchored existing name)
    (plain : Unmarked Markers.standard (lines body)) :
    ∃ new, merge Markers.standard existing name body = .ok new ∧
      Outside Markers.standard new name ∧
      ∀ other, merge Markers.standard (some new) name other =
        merge Markers.standard existing name other := by
  cases existing with
  | none =>
    have cut := Legible.cut_composeNew anchored plain
    have carried : carries Markers.standard (nameLine name ++ openingLine) name = true := by
      rw [carries_eq, contents_append (ended_nameLine name), anchored.contents_nameLine]
      simp
    have outside := outside_iff.mpr ⟨_, _, _, cut, Or.inl carried⟩
    refine ⟨_, rfl, outside, fun other => ?_⟩
    rw [merge_of_cut cut outside.carries]
    exact congrArg Except.ok (composeNew_eq _ _ _).symm
  | some t =>
    obtain ⟨front, inner, back, cut, carried⟩ := outside_iff.mp anchored
    have outside := outside_iff.mpr ⟨_, _, _, cut.between plain, carried⟩
    refine ⟨_, merge_of_cut cut anchored.carries body, outside, fun other => ?_⟩
    rw [merge_of_cut (cut.between plain) outside.carries, merge_of_cut cut anchored.carries]

/-- Merges bodies into a text, one after the other. -/
def mergeAll (name : Bytes) (t : Bytes) (bodies : List Bytes) : Except FailureKind Bytes :=
  bodies.foldlM (fun t body => merge Markers.standard (some t) name body) t

theorem mergeAll_of_anchored (anchored : Anchored existing name) {bodies : List Bytes}
    (plain : ∀ body, body ∈ bodies → Unmarked Markers.standard (lines body))
    (first : Unmarked Markers.standard (lines body))
    (merged : merge Markers.standard existing name body = .ok new) :
    ∃ last, mergeAll name new bodies = .ok last ∧ Outside Markers.standard last name ∧
      merge Markers.standard existing name (bodies.getLastD body) = .ok last := by
  induction bodies generalizing body new with
  | nil =>
    obtain ⟨new', merged', outside, -⟩ := merge_of_anchored anchored first
    cases merged.symm.trans merged'
    exact ⟨new, rfl, outside, merged⟩
  | cons next bodies ih =>
    obtain ⟨new', merged', outside, same⟩ := merge_of_anchored anchored first
    cases merged.symm.trans merged'
    have plainNext := plain next List.mem_cons_self
    obtain ⟨new', merged', -⟩ := merge_of_anchored anchored plainNext
    obtain ⟨last, rest, outside', decides⟩ :=
      ih (fun other member => plain other (List.mem_cons_of_mem _ member)) plainNext merged'
    refine ⟨last, ?_, outside', by rwa [List.getLastD_cons]⟩
    rw [mergeAll, List.foldlM_cons, same, merged']
    exact rest

/-- A text that came of a merge takes the next merge exactly if the name stands outside the region
of what was there, or in the body. A name in the body is lost with it. But a name outside the region
stays for ever: however many bodies are merged, each merge succeeds, the text carries the name and
has its region, and it is as if only the last body had been merged. -/
theorem merges_again_iff (plain : Unmarked Markers.standard (lines body))
    (merged : merge Markers.standard existing name body = .ok new) :
    ((∀ other, ∃ t, merge Markers.standard (some new) name other = .ok t) ↔
      Anchored existing name ∨ carries Markers.standard body name = true) ∧
    (Anchored existing name → ∀ bodies : List Bytes,
      (∀ other, other ∈ bodies → Unmarked Markers.standard (lines other)) →
      ∃ last, mergeAll name new bodies = .ok last ∧ Outside Markers.standard last name ∧
        merge Markers.standard existing name (bodies.getLastD body) = .ok last) := by
  refine ⟨?_, fun anchored bodies all => mergeAll_of_anchored anchored all plain merged⟩
  constructor
  · intro again
    obtain ⟨u, next⟩ := again []
    have carried := (merge_of_some next).1
    cases existing with
    | none => exact Or.inl (legible_of_carries carried)
    | some t =>
      obtain ⟨-, r, found, rfl⟩ := merge_of_some merged
      obtain ⟨inner, cut⟩ := cut_of_locate found
      rw [splice, ended_of_ended (cut.lines_with (Ended.ended body)).1, cut.carries_between,
        Bool.or_eq_true, Bool.or_eq_true] at carried
      rcases carried with (inFront | inBody) | inBack
      · exact Or.inl ⟨r, found, Or.inl inFront⟩
      · exact Or.inr inBody
      · exact Or.inl ⟨r, found, Or.inr inBack⟩
  · rintro (anchored | inBody) other
    · obtain ⟨new', merged', outside, -⟩ := merge_of_anchored anchored plain
      cases merged.symm.trans merged'
      exact outside.merges other
    · cases existing with
      | none =>
        have anchored : Anchored none name := legible_of_carries inBody
        obtain ⟨new', merged', outside, -⟩ := merge_of_anchored anchored plain
        cases merged.symm.trans merged'
        exact outside.merges other
      | some t =>
        obtain ⟨-, r, found, rfl⟩ := merge_of_some merged
        obtain ⟨inner, cut⟩ := cut_of_locate found
        rw [splice, ended_of_ended (cut.lines_with (Ended.ended body)).1]
        refine ⟨_, merge_of_cut (cut.between plain) ?_ other⟩
        rw [cut.carries_between, inBody, Bool.or_true, Bool.true_or]

/-- The body of a header before and after a change of its schema, and the file that is written for
the first one. -/
def exBody : Bytes := bytes "struct Pet {};"
def exChanged : Bytes := bytes "struct Pet { int legs; };\n"
def exFile : Bytes := composeNew Markers.standard (bytes "Pet") exBody

theorem merges_again_iff_exFile :
    merge Markers.standard none (bytes "Pet") exBody = .ok exFile ∧
      (∀ other, ∃ t, merge Markers.standard (some exFile) (bytes "Pet") other = .ok t) ∧
      mergeAll (bytes "Pet") exFile [exChanged, exBody, exChanged] =
        .ok (composeNew Markers.standard (bytes "Pet") exChanged) := by
  have plain : Unmarked Markers.standard (lines exBody) := unmarked_iff.mpr (by decide)
  have plain' : Unmarked Markers.standard (lines exChanged) := unmarked_iff.mpr (by decide)
  have legible : Legible (bytes "Pet") := ⟨by decide, byte 't', by decide, by decide, by decide⟩
  have merged : merge Markers.standard none (bytes "Pet") exBody = .ok exFile := rfl
  obtain ⟨again, series⟩ := merges_again_iff plain merged
  refine ⟨merged, again.mpr (Or.inl legible), ?_⟩
  obtain ⟨last, run, -, decides⟩ :=
    series legible [exChanged, exBody, exChanged] (by simp [plain, plain'])
  cases decides
  exact run

/-- A document with a schema whose name ends in a blank. -/
def exTrailing : Bytes := bytes
  "\x7b\"swagger\":\"2.0\",\"definitions\":\x7b\"Pet \":\x7b\"type\":\"string\"\x7d\x7d\x7d"

/-- Not all that was merged can be merged again: no line gives a name that ends in a blank. -/
theorem not_merges_again : ¬ ∀ (text : Bytes) (index : Index), Index.read text = .ok index →
    ∀ name, name ∈ index.names → ∀ existing body new, Unmarked Markers.standard (lines body) →
      merge Markers.standard existing name body = .ok new →
      ∀ other, ∃ t, merge Markers.standard (some new) name other = .ok t := by
  intro claimed
  have names : (Index.read exTrailing).toOption.map Index.names = some [bytes "Pet "] := by
    decide +kernel
  cases read : Index.read exTrailing with
  | error failure =>
    rw [read] at names
    exact nomatch names
  | ok index =>
    rw [read] at names
    have member : bytes "Pet " ∈ index.names := by
      rw [Option.some.inj names]
      exact List.mem_singleton_self _
    have plain : Unmarked Markers.standard (lines exBody) := unmarked_iff.mpr (by decide)
    obtain ⟨t, again⟩ := claimed exTrailing index read _ member none exBody _ plain rfl exBody
    exact absurd (merge_of_some again).1 (by decide)

/-- A file with its name inside the region loses it with the first merge. -/
def exInside : Bytes := openingLine ++ nameLine (bytes "Pet") ++ closingLine

example : merge Markers.standard (some exInside) (bytes "Pet") exChanged =
    .ok (openingLine ++ exChanged ++ closingLine) := by rfl

end Region

end HeaderForge
