import HeaderForge.Document.Yaml
import HeaderForge.Proofs.Document.Scanning
import HeaderForge.Proofs.Files.RegionLens
/-!
# Cuts

Whatever the reader goes on with, it has cut out of the text in front of it: blanks, separators and
comments go, and nothing comes to it.

1. `Bytes.exists_trim`: a text is what trimming leaves of it, between blanks.
2. `Pieces` tells how a text falls apart at its commas, and where the scan stands at each of them.
3. `eq_of_breakAtKeyColon?` and `eq_of_breakAtColon?`: a text that has a colon, put together again.
4. `totalLength` counts the bytes of texts, which no cut makes more.
-/

namespace HeaderForge

/-! ## Ends -/

theorem exists_dropEndWhile {α : Type} (p : α → Bool) (xs : List α) :
    ∃ back, xs = dropEndWhile p xs ++ back ∧ ∀ x, x ∈ back → p x = true := by
  induction xs with
  | nil => exact ⟨[], rfl, List.forall_mem_nil _⟩
  | cons x xs ih =>
    obtain ⟨back, equal, dropped⟩ := ih
    rw [dropEndWhile]
    split
    · next none =>
      rw [none, List.nil_append] at equal
      subst equal
      split
      · next here => exact ⟨x :: xs, rfl, List.forall_mem_cons.mpr ⟨here, dropped⟩⟩
      · exact ⟨xs, rfl, dropped⟩
    · exact ⟨back, congrArg (x :: ·) equal, dropped⟩

theorem dropEndWhile_cons {α : Type} {p : α → Bool} {x : α} (kept : p x = false) (xs : List α) :
    dropEndWhile p (x :: xs) = x :: dropEndWhile p xs := by
  rw [dropEndWhile, kept]
  split
  · next none => rw [none]; rfl
  · rfl

theorem dropEndWhile_eq_self {α : Type} {p : α → Bool} {xs : List α}
    (h : ∀ x, x ∈ xs → p x = false) : dropEndWhile p xs = xs := by
  induction xs with
  | nil => rfl
  | cons x xs ih =>
    obtain ⟨here, later⟩ := List.forall_mem_cons.mp h
    rw [dropEndWhile_cons here, ih later]

namespace Bytes

/-- All bytes of a text are blanks. -/
def Blank (t : Bytes) : Prop := ∀ b, b ∈ t → Byte.isBlank b = true

theorem exists_trim (t : Bytes) : ∃ front back, t = front ++ trim t ++ back ∧ Blank front ∧
    Blank back := by
  obtain ⟨back, equal, blank⟩ := exists_dropEndWhile Byte.isBlank (t.dropWhile Byte.isBlank)
  refine ⟨t.takeWhile Byte.isBlank, back, ?_, List.all_eq_true.mp List.all_takeWhile, blank⟩
  rw [List.append_assoc, trim, ← equal, List.takeWhile_append_dropWhile]

theorem trim_cons {b : UInt8} (visible : Byte.isBlank b = false) (t : Bytes) :
    trim (b :: t) = b :: dropEndWhile Byte.isBlank t := by
  rw [trim, List.dropWhile_cons_of_neg (by simp [visible]), dropEndWhile_cons visible]

theorem trim_cons_blank {b : UInt8} (blank : Byte.isBlank b = true) (t : Bytes) :
    trim (b :: t) = trim t := by
  rw [trim, List.dropWhile_cons_of_pos blank, trim]

theorem trim_length_le (t : Bytes) : (trim t).length ≤ t.length := by
  obtain ⟨front, back, equal, -⟩ := exists_trim t
  have whole := congrArg List.length equal
  simp only [List.length_append] at whole
  omega

theorem trim_append_blank {b : UInt8} (blank : Byte.isBlank b = true) (t : Bytes) :
    trim (t ++ [b]) = trim t := by
  unfold trim
  rw [List.dropWhile_append]
  split
  · next empty =>
    rw [List.isEmpty_iff.mp empty, List.dropWhile_cons_of_pos blank]
    rfl
  · exact dropEndWhile_append_singleton blank _

/-- Blanks around a text do not matter to what trimming leaves of it. -/
theorem trim_between {front back : Bytes} (before : Blank front) (after : Blank back) (t : Bytes) :
    trim (front ++ t ++ back) = trim t := by
  have behind (u : Bytes) : trim (u ++ back) = trim u := by
    induction back generalizing u with
    | nil => rw [List.append_nil]
    | cons b back ih =>
      obtain ⟨here, later⟩ := List.forall_mem_cons.mp after
      rw [List.append_cons, ih later, trim_append_blank here]
  rw [behind, trim, List.dropWhile_append_of_pos before, trim]

theorem trim_trim (t : Bytes) : trim (trim t) = trim t := by
  obtain ⟨front, back, equal, before, after⟩ := exists_trim t
  calc trim (trim t) = trim (front ++ trim t ++ back) := (trim_between before after _).symm
    _ = trim t := congrArg trim equal.symm

/-- Trimming that makes a text no shorter leaves it as it is. -/
theorem trim_eq_self {t : Bytes} (whole : (trim t).length = t.length) : trim t = t := by
  obtain ⟨front, back, equal, -⟩ := exists_trim t
  have lengths := congrArg List.length equal
  simp only [List.length_append] at lengths
  obtain rfl : front = [] := List.length_eq_zero_iff.mp (by omega)
  obtain rfl : back = [] := List.length_eq_zero_iff.mp (by omega)
  rwa [List.nil_append, List.append_nil, eq_comm] at equal

theorem visible_of_trim_cons {b : UInt8} {t : Bytes} (whole : trim (b :: t) = b :: t) :
    Byte.isBlank b = false := by
  refine Bool.eq_false_iff.mpr fun blank => ?_
  have shorter := trim_length_le t
  rw [← trim_cons_blank blank, whole, List.length_cons] at shorter
  omega

end Bytes

namespace Yaml

/-! ## Separators -/

theorem eq_start_of_atTop {s : Scan} (top : s.atTop = true) : s = .start := by
  obtain ⟨inSingle, inDouble, depth⟩ := s
  simpa [Scan.atTop, Scan.outsideQuotes, Scan.start, and_assoc] using top

theorem Scan.run_append (s : Scan) (t u : Bytes) : s.run (t ++ u) = (s.run t).run u :=
  List.foldl_append

/-- How a text falls apart into pieces: at commas where a scan of the piece before stands outside
quotes and brackets, from where on the next piece is scanned as a text of its own. -/
inductive Pieces : Scan → Bytes → List Bytes → Prop
  | last {s : Scan} (t : Bytes) : Pieces s t [t]
  | cut {s : Scan} {first rest : Bytes} {others : List Bytes} : s.run first = .start →
      Pieces .start rest others → Pieces s (first ++ byte ',' :: rest) (first :: others)

theorem Pieces.cons {s : Scan} {b : UInt8} {t first : Bytes} {others : List Bytes}
    (h : Pieces (s.step b) t (first :: others)) : Pieces s (b :: t) ((b :: first) :: others) := by
  cases h with
  | last => exact .last (b :: t)
  | cut top more => exact @Pieces.cut s (b :: _) _ _ top more

theorem Pieces.ne_nil {s : Scan} {t : Bytes} {parts : List Bytes} (h : Pieces s t parts) :
    parts ≠ [] := by
  cases h <;> exact List.cons_ne_nil _ _

theorem pieces_splitAtCommas (s : Scan) (t : Bytes) : Pieces s t (splitAtCommas s t) := by
  induction t generalizing s with
  | nil => exact .last []
  | cons b rest ih =>
    rw [splitAtCommas]
    split
    · next comma =>
      obtain ⟨comma, top⟩ := Bool.and_eq_true_iff.mp comma
      rw [eq_start_of_atTop top, eq_of_beq comma]
      exact @Pieces.cut _ [] _ _ rfl (ih .start)
    · have later := ih (s.step b)
      split
      · next none => exact absurd none later.ne_nil
      · next first others equal => exact (equal ▸ later).cons

theorem eq_of_breakAtKeyColon? {s : Scan} {t before after : Bytes}
    (h : breakAtKeyColon? s t = some (before, after)) : t = before ++ byte ':' :: after := by
  induction t generalizing s before with
  | nil => exact nomatch h
  | cons b rest ih =>
    rw [breakAtKeyColon?] at h
    split at h
    · next colon =>
      cases h
      simp only [Bool.and_eq_true, beq_iff_eq] at colon
      rw [colon.1.1, List.nil_append]
    · obtain ⟨⟨front, back⟩, found, equal⟩ := Option.map_eq_some_iff.mp h
      cases equal
      exact congrArg (b :: ·) (ih found)

theorem eq_of_breakAtColon? {s : Scan} {t before after : Bytes}
    (h : breakAtColon? s t = some (before, after)) : t = before ++ byte ':' :: after := by
  induction t generalizing s before with
  | nil => exact nomatch h
  | cons b rest ih =>
    rw [breakAtColon?] at h
    split at h
    · next colon =>
      cases h
      rw [eq_of_beq (Bool.and_eq_true_iff.mp colon).1, List.nil_append]
    · obtain ⟨⟨front, back⟩, found, equal⟩ := Option.map_eq_some_iff.mp h
      cases equal
      exact congrArg (b :: ·) (ih found)

/-! ## Lengths -/

/-- The bytes of all texts together. -/
def totalLength : List Bytes → Nat
  | [] => 0
  | t :: rest => t.length + totalLength rest

theorem totalLength_cons (t : Bytes) (texts : List Bytes) :
    totalLength (t :: texts) = t.length + totalLength texts := rfl

theorem totalLength_of_sublist {some all : List Bytes} (h : some.Sublist all) :
    totalLength some ≤ totalLength all := by
  induction h with
  | slnil => exact Nat.le_refl _
  | cons t _ ih =>
    rw [totalLength_cons]
    exact Nat.le_add_left_of_le ih
  | cons_cons t _ ih =>
    rw [totalLength_cons, totalLength_cons]
    exact Nat.add_le_add_left ih _

theorem totalLength_trim_le (texts : List Bytes) :
    totalLength (texts.map Bytes.trim) ≤ totalLength texts := by
  induction texts with
  | nil => exact Nat.le_refl _
  | cons t texts ih =>
    rw [List.map_cons, totalLength_cons, totalLength_cons]
    exact Nat.add_le_add (Bytes.trim_length_le t) ih

theorem Pieces.totalLength_le {s : Scan} {t : Bytes} {parts : List Bytes} (h : Pieces s t parts) :
    totalLength parts ≤ t.length := by
  induction h with
  | last t => exact Nat.le_of_eq (totalLength_cons t [])
  | cut _ _ ih =>
    rw [totalLength_cons, List.length_append, List.length_cons]
    omega

theorem totalLength_flowParts_le (inner : Bytes) :
    totalLength (flowParts inner) ≤ inner.length := by
  have trimmed := totalLength_trim_le (splitAtCommas .start inner)
  have split := (pieces_splitAtCommas .start inner).totalLength_le
  have kept := totalLength_of_sublist (List.dropLast_sublist ((splitAtCommas .start inner).map
    Bytes.trim))
  unfold flowParts
  dsimp only
  split <;> omega

/-- Cutting a text at its stops loses the stops, one fewer than there are pieces. -/
theorem totalLength_splitAll (stop : UInt8) (t : Bytes) :
    totalLength (Bytes.splitAll stop t) + (Bytes.splitAll stop t).length = t.length + 1 := by
  induction t with
  | nil => rfl
  | cons b rest ih =>
    rw [Bytes.splitAll]
    split
    · rw [totalLength_cons]
      simp only [List.length_cons, List.length_nil]
      omega
    · split
      · next none =>
        simp only [none, totalLength, List.length_nil] at ih
        omega
      · next first others equal =>
        rw [equal, totalLength_cons] at ih
        rw [totalLength_cons]
        simp only [List.length_cons] at ih ⊢
        omega

end Yaml

end HeaderForge
