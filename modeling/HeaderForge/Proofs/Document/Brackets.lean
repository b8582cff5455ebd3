import HeaderForge.Proofs.Document.Cuts
/-!
# Brackets

A scan counts brackets without their kinds. To say of a text that its brackets are balanced one has
to look at the kinds as well: a bracket may close only the one that was opened last.

1. `brackets` are the brackets of a text outside quotes, and `awaited?` are those that are still to
   come after them. `WellNested` texts await none.
2. `depth_of_awaited?`: a scan stands as deep as there are brackets to come.
3. `Follows` says of a text that it closes its brackets if something holds, and else leaves some of
   them open. `Pieces.follows` and `Follows.enclosed` put such texts together, as the pieces between
   commas and between brackets.
-/

namespace HeaderForge

namespace Yaml

/-! ## Nesting -/

def isOpening (b : UInt8) : Bool := b == byte '\x7b' || b == byte '['

def isClosing (b : UInt8) : Bool := b == byte '\x7d' || b == byte ']'

/-- The brackets of a text that stand outside quotes. -/
def brackets : Scan → Bytes → Bytes
  | _, [] => []
  | s, b :: rest =>
    if s.outsideQuotes && (isOpening b || isClosing b) then b :: brackets (s.step b) rest
    else brackets (s.step b) rest

/-- The brackets that are still to come after some others, the next one first. One that closes has
to be the next one. -/
def awaited? : List UInt8 → Bytes → Option (List UInt8)
  | awaited, [] => some awaited
  | awaited, b :: rest =>
    if isOpening b then awaited? (closing [b] :: awaited) rest
    else if awaited.head? = some b then awaited? awaited.tail rest
    else none

/-- The brackets of a text outside quotes are balanced and properly nested, and each one is closed
by one of its own kind. -/
def WellNested (t : Bytes) : Prop := awaited? [] (brackets .start t) = some []

/-- A text that closes its quotes and its brackets. -/
structure Balanced (t : Bytes) : Prop where
  scan : Scan.start.run t = .start
  nested : WellNested t

/-! ## Scans at some depth -/

/-- A scan within so many more brackets. -/
def Scan.deeper (k : Int) (s : Scan) : Scan := { s with depth := s.depth + k }

theorem Scan.step_deeper (k : Int) (s : Scan) (b : UInt8) :
    (s.deeper k).step b = (s.step b).deeper k := by
  simp only [step, deeper, outsideQuotes]
  grind

theorem Scan.run_deeper (k : Int) (s : Scan) (t : Bytes) :
    (s.deeper k).run t = (s.run t).deeper k := by
  induction t generalizing s with
  | nil => rfl
  | cons b t ih => exact (congrArg (·.run t) (s.step_deeper k b)).trans (ih (s.step b))

/-- A bracket outside quotes changes nothing but how deep a scan stands. -/
theorem Scan.step_bracket {s : Scan} {b : UInt8} (outside : s.outsideQuotes = true)
    (bracket : (isOpening b || isClosing b) = true) :
    s.step b = s.deeper (if isOpening b then 1 else -1) := by
  have known : (b = byte '\x7b' ∨ b = byte '[') ∨ b = byte '\x7d' ∨ b = byte ']' := by
    simpa [isOpening, isClosing] using bracket
  rcases known with (rfl | rfl) | rfl | rfl
  all_goals simp [step, deeper, outside, isOpening, byte, Int.sub_eq_add_neg]

/-- Nothing else changes it. -/
theorem Scan.step_depth {s : Scan} {b : UInt8}
    (hidden : (s.outsideQuotes && (isOpening b || isClosing b)) = false) :
    (s.step b).depth = s.depth := by
  unfold step
  split
  · rfl
  · split
    · rfl
    · split
      · rfl
      · next outside =>
        obtain ⟨opening, closing⟩ : isOpening b = false ∧ isClosing b = false := by
          simpa [show s.outsideQuotes = true by simpa using outside] using hidden
        rw [isOpening] at opening
        rw [isClosing] at closing
        rw [opening, closing]
        rfl

theorem brackets_deeper (k : Int) (s : Scan) (t : Bytes) :
    brackets (s.deeper k) t = brackets s t := by
  induction t generalizing s with
  | nil => rfl
  | cons b t ih =>
    rw [brackets, brackets, Scan.step_deeper, ih]
    rfl

theorem brackets_append (s : Scan) (t u : Bytes) :
    brackets s (t ++ u) = brackets s t ++ brackets (s.run t) u := by
  induction t generalizing s with
  | nil => rfl
  | cons b t ih =>
    rw [List.cons_append, brackets, brackets, ih]
    split <;> rfl

/-! ## Brackets to come -/

theorem awaited?_append (awaited : List UInt8) (t u : Bytes) :
    awaited? awaited (t ++ u) = (awaited? awaited t).bind fun left => awaited? left u := by
  induction t generalizing awaited with
  | nil => rfl
  | cons b t ih =>
    rw [List.cons_append, awaited?, awaited?]
    split
    · exact ih _
    · split
      · exact ih _
      · rfl

/-- Brackets that come after all those of a text do not matter to it. -/
theorem awaited?_above {awaited left : List UInt8} {t : Bytes} (h : awaited? awaited t = some left)
    (more : List UInt8) : awaited? (awaited ++ more) t = some (left ++ more) := by
  induction t generalizing awaited with
  | nil =>
    cases h
    rfl
  | cons b t ih =>
    rw [awaited?] at h ⊢
    split at h
    · next opens =>
      rw [if_pos opens]
      exact ih h
    · next other =>
      rw [if_neg other]
      split at h
      · next top =>
        obtain ⟨rest, rfl⟩ := List.head?_eq_some_iff.mp top
        rw [if_pos (show ((b :: rest) ++ more).head? = some b from rfl)]
        exact ih h
      · exact nomatch h

/-- A scan counts the brackets that are still to come. -/
theorem depth_of_awaited? {s : Scan} {t : Bytes} {awaited left : List UInt8}
    (h : awaited? awaited (brackets s t) = some left) :
    (s.run t).depth + awaited.length = s.depth + left.length := by
  induction t generalizing s awaited with
  | nil =>
    cases h
    rfl
  | cons b t ih =>
    change ((s.step b).run t).depth + awaited.length = s.depth + left.length
    rw [brackets] at h
    split at h
    · next visible =>
      obtain ⟨outside, bracket⟩ := Bool.and_eq_true_iff.mp visible
      have step := Scan.step_bracket outside bracket
      rw [awaited?] at h
      split at h
      · next opening =>
        have later := ih h
        rw [step, if_pos opening, Scan.deeper] at later ⊢
        rw [List.length_cons] at later
        dsimp only at later
        omega
      · next closing =>
        split at h
        · next top =>
          obtain ⟨rest, rfl⟩ := List.head?_eq_some_iff.mp top
          have later := ih h
          rw [step, if_neg closing, Scan.deeper] at later ⊢
          rw [List.tail_cons] at later
          rw [List.length_cons]
          dsimp only at later
          omega
        · exact nomatch h
    · next hidden =>
      have later := ih h
      rwa [Scan.step_depth (Bool.eq_false_iff.mpr hidden)] at later

/-! ## Texts that close their brackets -/

theorem not_mark_of_blank : ∀ b : UInt8, (!Byte.isBlank b || !Scan.isMark b) = true :=
  Byte.of_all (by decide +kernel)

/-- Blanks mean nothing to a scan, and are no brackets. -/
theorem run_blank {t : Bytes} (blank : Bytes.Blank t) (s : Scan) :
    s.run t = s ∧ brackets s t = [] := by
  induction t with
  | nil => exact ⟨rfl, rfl⟩
  | cons b t ih =>
    obtain ⟨here, later⟩ := List.forall_mem_cons.mp blank
    have plain : Scan.isMark b = false := by simpa [here] using not_mark_of_blank b
    obtain ⟨single, double, brace, brace', bracket, bracket', -⟩ := Scan.not_mark_iff.mp plain
    have step : s.step b = s := by
      simp [Scan.step, single, double, brace, brace', bracket, bracket']
    obtain ⟨scan, none⟩ := ih later
    refine ⟨(congrArg (·.run t) step).trans scan, ?_⟩
    rw [brackets, step, none]
    simp [isOpening, isClosing, brace, brace', bracket, bracket']

namespace Balanced

variable {t u : Bytes}

/-- A text that closes its brackets takes none of those that were open before. -/
theorem awaited? (h : Balanced t) (awaited : List UInt8) :
    Yaml.awaited? awaited (brackets .start t) = some awaited :=
  awaited?_above h.nested awaited

theorem brackets_append (first : Balanced t) (u : Bytes) :
    brackets .start (t ++ u) = brackets .start t ++ brackets .start u := by
  rw [Yaml.brackets_append, first.scan]

theorem append (first : Balanced t) (second : Balanced u) : Balanced (t ++ u) := by
  refine ⟨?_, ?_⟩
  · rw [Scan.run_append, first.scan, second.scan]
  · rw [WellNested, first.brackets_append, awaited?_append, first.awaited?]
    exact second.nested

theorem of_blank (blank : Bytes.Blank t) : Balanced t := by
  obtain ⟨scan, none⟩ := run_blank blank .start
  exact ⟨scan, by rw [WellNested, none]; rfl⟩

end Balanced

/-- A text that leaves more brackets open than it found, whatever it found. -/
def Deepens (t : Bytes) : Prop := ∀ awaited left,
  awaited? awaited (brackets .start t) = some left → awaited.length < left.length

/-- A text that closes its brackets if something holds, and else leaves some of them open. -/
structure Follows (closed : Prop) (t : Bytes) : Prop where
  balanced : closed → Balanced t
  deepens : ¬ closed → Deepens t

namespace Follows

variable {closed closed' : Prop} {t : Bytes}

theorem congr (same : closed' ↔ closed) (h : Follows closed t) : Follows closed' t :=
  ⟨fun holds => h.balanced (same.mp holds), fun fails => h.deepens (mt same.mpr fails)⟩

theorem of_balanced (holds : closed) (h : Balanced t) : Follows closed t :=
  ⟨fun _ => h, fun fails => absurd holds fails⟩

theorem after {front : Bytes} (first : Balanced front) (h : Follows closed t) :
    Follows closed (front ++ t) := by
  refine ⟨fun holds => first.append (h.balanced holds), fun fails awaited left found => ?_⟩
  rw [first.brackets_append, awaited?_append, first.awaited?] at found
  exact h.deepens fails awaited left found

theorem between {front back : Bytes} (before : Bytes.Blank front) (behind : Bytes.Blank back)
    (h : Follows closed t) : Follows closed (front ++ t ++ back) := by
  have later := h.after (.of_blank before)
  refine ⟨fun holds => (later.balanced holds).append (.of_blank behind),
    fun fails awaited left found => ?_⟩
  rw [brackets_append, (run_blank behind _).2, List.append_nil] at found
  exact later.deepens fails awaited left found

end Follows

/-- At a comma all brackets of the piece before are closed. So it is the last piece that may leave
some of them open, and the text does so just as this piece. -/
theorem Pieces.follows {t : Bytes} {parts : List Bytes} {P : Bytes → Prop}
    (h : Pieces .start t parts) (each : ∀ piece, piece ∈ parts → Follows (P piece) piece) :
    Follows (∀ piece, piece ∈ parts → P piece) t := by
  generalize start : Scan.start = s at h
  induction h with
  | last t => exact (each t List.mem_cons_self).congr (by simp)
  | @cut s first rest others top _ ih =>
    subst start
    obtain ⟨here, later⟩ := List.forall_mem_cons.mp each
    by_cases holds : P first
    · have comma : Balanced [byte ','] := ⟨rfl, rfl⟩
      have whole := (ih later rfl).after ((here.balanced holds).append comma)
      rw [List.append_assoc] at whole
      exact whole.congr (by simp [holds])
    -- A piece that leaves brackets open has no comma behind it at which the scan is at the start.
    · refine ⟨fun all => absurd (all first List.mem_cons_self) holds, ?_⟩
      intro _ awaited left found
      rw [brackets_append, awaited?_append] at found
      obtain ⟨middle, front, -⟩ := Option.bind_eq_some_iff.mp found
      have deeper := here.deepens holds awaited middle front
      have depth := depth_of_awaited? front
      rw [top] at depth
      simp only [Scan.start] at depth
      omega

/-- One byte closes one bracket at most. -/
theorem left_of_byte {s : Scan} {b : UInt8} {awaited left : List UInt8}
    (h : awaited? awaited (brackets s [b]) = some left) :
    awaited.length ≤ left.length ∨ awaited = b :: left := by
  simp only [brackets] at h
  split at h
  · rw [awaited?] at h
    split at h
    · cases h
      exact .inl (Nat.le_succ _)
    · split at h
      · next top =>
        obtain ⟨rest, rfl⟩ := List.head?_eq_some_iff.mp top
        cases h
        exact .inr rfl
      · exact nomatch h
  · cases h
    exact .inl (Nat.le_refl _)

theorem closing_bracket (t : Bytes) :
    isOpening (closing t) = false ∧ isClosing (closing t) = true := by
  unfold closing
  split <;> exact ⟨rfl, rfl⟩

/-- The brackets behind one that opens are scanned one level deeper, which they do not show. -/
theorem brackets_opening {b : UInt8} (opens : isOpening b = true) (t : Bytes) :
    brackets .start (b :: t) = b :: brackets .start t := by
  have bracket : (isOpening b || isClosing b) = true := by rw [opens, Bool.true_or]
  rw [brackets, Scan.step_bracket rfl bracket, brackets_deeper, bracket]
  rfl

section

variable {b last : UInt8} {t : Bytes} (opens : isOpening b = true)
include opens

/-- What is to come after a text between an opening bracket and some last byte. -/
theorem awaited?_enclosed (awaited : List UInt8) :
    awaited? awaited (brackets .start (b :: (t ++ [last]))) =
      (awaited? (closing [b] :: awaited) (brackets .start t)).bind fun left =>
        awaited? left (brackets (Scan.start.run t) [last]) := by
  rw [brackets_opening opens, awaited?, if_pos opens, brackets_append, awaited?_append]

theorem Balanced.enclosed (inner : Balanced t) : Balanced (b :: (t ++ [closing [b]])) := by
  have bracket : (isOpening b || isClosing b) = true := by rw [opens, Bool.true_or]
  obtain ⟨notOpening, closes⟩ := closing_bracket [b]
  have visible : (isOpening (closing [b]) || isClosing (closing [b])) = true := by
    rw [closes, Bool.or_true]
  constructor
  · have opened : Scan.start.step b = Scan.start.deeper 1 := by
      rw [Scan.step_bracket rfl bracket, if_pos opens]
    have closed : (Scan.start.deeper 1).step (closing [b]) = .start := by
      rw [Scan.step_bracket rfl visible, notOpening]
      rfl
    calc Scan.start.run (b :: (t ++ [closing [b]]))
        = ((Scan.start.step b).run t).run [closing [b]] := Scan.run_append _ _ _
      _ = (Scan.start.deeper 1).step (closing [b]) := by
        rw [opened, Scan.run_deeper, inner.scan]
        rfl
      _ = .start := closed
  · rw [WellNested, awaited?_enclosed opens, inner.awaited?, inner.scan, Option.bind_some, brackets,
      visible]
    simp [Scan.start, Scan.outsideQuotes, brackets, Yaml.awaited?, notOpening]

/-- Between an opening bracket and a byte that does not close it something is left open, and so it
is where something is left open within: the last byte closes one bracket at most. -/
theorem Follows.enclosed {closed : Prop} (h : Follows closed t) :
    Follows (closed ∧ last = closing [b]) (b :: (t ++ [last])) := by
  constructor
  · rintro ⟨holds, rfl⟩
    exact (h.balanced holds).enclosed opens
  · intro fails awaited left found
    rw [awaited?_enclosed opens] at found
    obtain ⟨middle, front, back⟩ := Option.bind_eq_some_iff.mp found
    by_cases holds : closed
    · rw [(h.balanced holds).awaited?] at front
      cases front
      rcases left_of_byte back with longer | same
      · exact longer
      · exact absurd ⟨holds, ((List.cons.inj same).1).symm⟩ fails
    · have deeper := h.deepens holds _ _ front
      rw [List.length_cons] at deeper
      rcases left_of_byte back with longer | rfl
      · omega
      · exact Nat.lt_of_succ_lt_succ deeper

end

end Yaml

end HeaderForge
