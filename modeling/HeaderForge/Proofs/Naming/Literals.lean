import HeaderForge.Naming
import HeaderForge.Proofs.Naming
import Mathlib.Algebra.Ring.Parity
import Mathlib.Data.List.Induction
/-!
# String literals

How code is read for its string literals, apart from how they are written. `Code.read` goes through
code byte by byte and decodes each literal that it comes to. It refuses what a compiler would refuse
or take for something else: a literal that a line ends in, an escape that is not known, a quote or a
word right beside a literal.

1. `Code.read_append`: code is read piece by piece.
2. `Code.read_literal`: what is written for a text is one literal that stands for it.
   `Naming.literal_append_inj`: where it ends does not depend on what follows.
3. `Naming.even_slashes_literalText` and `Naming.odd_slashes_of_quote`: backslashes come in pairs,
   except before a quote inside the literal.
4. `Naming.stands` puts these together.
-/

namespace HeaderForge

namespace Code

def quote : UInt8 := byte '"'

/-- Where a reader of code stands. -/
inductive Place where
  /-- A literal can begin here. -/
  | free
  /-- After a word. A quote here would begin a literal of another kind. -/
  | word
  /-- In a literal, after what has been read of it. -/
  | inside (text : Bytes)
  /-- In a literal, after a backslash. -/
  | escape (text : Bytes)
  /-- After a literal. A word here would belong to it, and another literal would be joined to it. -/
  | closed
deriving DecidableEq

/-- What an escape stands for. -/
def escaped? (b : UInt8) : Option UInt8 :=
  if b == quote || b == byte '\\' then some b
  else if b == byte 'n' then some (byte '\n')
  else if b == byte 'r' then some (byte '\r')
  else if b == byte 't' then some (byte '\t')
  else none

/-- After a byte of code outside of literals. -/
def outside (b : UInt8) : Place := if Byte.isWord b then .word else .free

/-- The texts of the literals in code, and where the reader stands after it. -/
def read : Place → Bytes → Option (List Bytes × Place)
  | p, [] => some ([], p)
  | .free, b :: rest => read (if b == quote then .inside [] else outside b) rest
  | .word, b :: rest => if b == quote then none else read (outside b) rest
  | .inside text, b :: rest =>
    if b == quote then (read .closed rest).map fun (found, p) => (text :: found, p)
    else if b == byte '\\' then read (.escape text) rest
    else if b == byte '\n' || b == byte '\r' then none
    else read (.inside (text ++ [b])) rest
  | .escape text, b :: rest =>
    match escaped? b with
    | some value => read (.inside (text ++ [value])) rest
    | none => none
  | .closed, b :: rest =>
    if b == quote || Byte.isWord b then none
    else read (if Byte.isBlank b then .closed else .free) rest

theorem read_append (p : Place) (code more : Bytes) :
    read p (code ++ more) = (read p code).bind fun (found, q) =>
      (read q more).map fun (others, r) => (found ++ others, r) := by
  induction code generalizing p with
  | nil => cases p <;> simp [read]
  | cons b rest ih =>
    cases p with
    | free => simp only [List.cons_append, read, ih]
    | word =>
      simp only [List.cons_append, read]
      split
      · rfl
      · exact ih _
    | inside text =>
      simp only [List.cons_append, read]
      split
      · rw [ih]
        cases read .closed rest <;> simp [Function.comp_def]
      · split
        · exact ih _
        · split
          · rfl
          · exact ih _
    | escape text =>
      simp only [List.cons_append, read]
      split
      · exact ih _
      · rfl
    | closed =>
      simp only [List.cons_append, read]
      split
      · rfl
      · exact ih _

/-! ## Reading what is written -/

/-- The bytes that are never written as they are. -/
def escapedBytes : List UInt8 := [quote, byte '\\', byte '\n', byte '\r', byte '\t']

/-- A byte is written as it is, or as a backslash and what stands for it after one. -/
theorem literalByte_cases (b : UInt8) :
    (Naming.literalByte b = [b] ∧ b ∉ escapedBytes) ∨
      ∃ e, Naming.literalByte b = [byte '\\', e] ∧ escaped? e = some b ∧
        e ∉ [byte '\n', byte '\r', byte '\t'] := by
  by_cases special : b ∈ escapedBytes
  · right
    simp only [escapedBytes, List.mem_cons, List.not_mem_nil, or_false] at special
    rcases special with rfl | rfl | rfl | rfl | rfl
    · exact ⟨quote, by decide⟩
    · exact ⟨byte '\\', by decide⟩
    · exact ⟨byte 'n', by decide⟩
    · exact ⟨byte 'r', by decide⟩
    · exact ⟨byte 't', by decide⟩
  · left
    refine ⟨?_, special⟩
    simp only [escapedBytes, quote, List.mem_cons, List.not_mem_nil, or_false, not_or] at special
    simp [Naming.literalByte, special]

/-- What is written for one byte is read as that byte. -/
theorem read_literalByte (text : Bytes) (b : UInt8) (rest : Bytes) :
    read (.inside text) (Naming.literalByte b ++ rest) = read (.inside (text ++ [b])) rest := by
  rcases literalByte_cases b with ⟨plain, ordinary⟩ | ⟨e, written, stands, -⟩
  · simp only [escapedBytes, List.mem_cons, List.not_mem_nil, or_false, not_or] at ordinary
    simp [plain, read, ordinary]
  · have slash : (byte '\\' == quote) = false := by decide
    simp [written, read, slash, stands]

theorem read_escaped (text t rest : Bytes) :
    read (.inside text) (Naming.literalText t ++ rest) = read (.inside (text ++ t)) rest := by
  induction t generalizing text with
  | nil => simp [Naming.literalText]
  | cons b t ih =>
    rw [Naming.literalText, List.flatMap_cons, List.append_assoc, read_literalByte]
    exact (ih (text ++ [b])).trans (by simp)

/-- What is written for a text is one literal that stands for it. -/
theorem read_literal (t : Bytes) : read .free (Naming.literal t) = some ([t], .closed) := by
  have opened : read .free (Naming.literal t) =
      read (.inside []) (Naming.literalText t ++ [quote]) := by
    simp [Naming.literal, read, quote]
  rw [opened, read_escaped]
  simp [read]

end Code

namespace Naming

open Code (quote literalByte_cases)

theorem mem_literalText {b : UInt8} {t : Bytes} :
    b ∈ literalText t ↔ ∃ c, c ∈ t ∧ b ∈ literalByte c := List.mem_flatMap

/-- No line ends in a literal, and it has no tab. -/
theorem not_mem_literal {b : UInt8} (h : b ∈ [byte '\n', byte '\r', byte '\t']) (t : Bytes) :
    b ∉ literal t := by
  have other : b ≠ quote ∧ b ≠ byte '\\' ∧ b ∈ Code.escapedBytes := by
    simp only [List.mem_cons, List.not_mem_nil, or_false] at h
    rcases h with rfl | rfl | rfl <;> decide
  simp only [literal, List.cons_append, List.mem_cons, List.mem_append, List.not_mem_nil, or_false,
    mem_literalText, not_or]
  refine ⟨other.1, ?_, other.1⟩
  rintro ⟨c, -, member⟩
  rcases literalByte_cases c with ⟨plain, ordinary⟩ | ⟨e, written, -, printable⟩
  · rw [plain, List.mem_singleton] at member
    exact ordinary (member ▸ other.2.2)
  · rw [written, List.mem_cons, List.mem_singleton] at member
    rcases member with rfl | rfl
    · exact other.2.1 rfl
    · exact printable h

theorem literalByte_append_inj {b c : UInt8} {rest rest' : Bytes}
    (same : literalByte b ++ rest = literalByte c ++ rest') : b = c ∧ rest = rest' := by
  have slash : byte '\\' ∈ Code.escapedBytes := by decide
  rcases literalByte_cases b with ⟨plain, ordinary⟩ | ⟨e, written, stands, -⟩ <;>
    rcases literalByte_cases c with ⟨plain', ordinary'⟩ | ⟨e', written', stands', -⟩
  · rw [plain, plain'] at same
    exact List.cons.inj same
  · rw [plain, written'] at same
    exact absurd ((List.cons.inj same).1 ▸ slash) ordinary
  · rw [written, plain'] at same
    exact absurd ((List.cons.inj same).1 ▸ slash) ordinary'
  · rw [written, written'] at same
    obtain ⟨rfl, rfl⟩ := List.cons.inj (List.cons.inj same).2
    exact ⟨Option.some.inj (stands.symm.trans stands'), rfl⟩

/-- Nothing that is written for a byte starts with a quote. -/
theorem literalByte_append_ne (b : UInt8) (rest rest' : Bytes) :
    literalByte b ++ rest ≠ quote :: rest' := by
  rcases literalByte_cases b with ⟨plain, ordinary⟩ | ⟨e, written, -⟩
  · rw [plain]
    rintro same
    have quoted : quote ∈ Code.escapedBytes := by decide
    exact ordinary ((List.cons.inj same).1 ▸ quoted)
  · rw [written]
    exact fun same => absurd (List.cons.inj same).1 (by decide)

/-- A literal ends where it ends, whatever follows, and tells its text. -/
theorem literal_append_inj {t u rest rest' : Bytes} :
    literal t ++ rest = literal u ++ rest' ↔ t = u ∧ rest = rest' := by
  refine ⟨fun same => ?_, fun ⟨h, h'⟩ => h ▸ h' ▸ rfl⟩
  have texts : literalText t ++ quote :: rest = literalText u ++ quote :: rest' := by
    simpa [literal, quote] using same
  clear same
  induction t generalizing u with
  | nil =>
    cases u with
    | nil => exact ⟨rfl, (List.cons.inj texts).2⟩
    | cons c u =>
      rw [literalText, literalText, List.flatMap_cons, List.append_assoc] at texts
      exact absurd texts.symm (literalByte_append_ne c _ _)
  | cons b t ih =>
    cases u with
    | nil =>
      rw [literalText, literalText, List.flatMap_cons, List.append_assoc] at texts
      exact absurd texts (literalByte_append_ne b _ _)
    | cons c u =>
      rw [literalText, literalText, List.flatMap_cons, List.flatMap_cons, List.append_assoc,
        List.append_assoc] at texts
      obtain ⟨rfl, later⟩ := literalByte_append_inj texts
      obtain ⟨rfl, rest⟩ := ih later
      exact ⟨rfl, rest⟩

/-! ## Runs of backslashes -/

/-- How many backslashes a text ends with. -/
def slashesAtEnd (t : Bytes) : Nat := (t.reverse.takeWhile (· == byte '\\')).length

theorem slashesAtEnd_append_singleton (t : Bytes) (b : UInt8) :
    slashesAtEnd (t ++ [b]) = if b = byte '\\' then slashesAtEnd t + 1 else 0 := by
  by_cases slash : b = byte '\\' <;> simp [slashesAtEnd, slash]

theorem literalText_append_singleton (t : Bytes) (b : UInt8) :
    literalText (t ++ [b]) = literalText t ++ literalByte b := by
  simp [literalText]

/-- No escape is cut by the quote that ends the literal: the backslashes before it come in pairs. -/
theorem even_slashes_literalText (t : Bytes) : Even (slashesAtEnd (literalText t)) := by
  induction t using List.reverseRecOn with
  | nil => exact Even.zero
  | append_singleton t b ih =>
    rw [literalText_append_singleton]
    rcases literalByte_cases b with ⟨plain, ordinary⟩ | ⟨e, written, -⟩
    · have other : b ≠ byte '\\' := by
        rintro rfl
        exact ordinary (by decide)
      rw [plain, slashesAtEnd_append_singleton, if_neg other]
      exact Even.zero
    · rw [written, ← List.singleton_append, ← List.append_assoc, slashesAtEnd_append_singleton,
        slashesAtEnd_append_singleton, if_pos rfl]
      split
      · exact ih.add_one.add_one
      · exact Even.zero

/-- A quote inside a literal is escaped: the last of the backslashes before it belongs to none of
the others. -/
theorem odd_slashes_of_quote {t front back : Bytes}
    (split : literalText t = front ++ quote :: back) : Odd (slashesAtEnd front) := by
  induction t using List.reverseRecOn generalizing back with
  | nil => simp [literalText] at split
  | append_singleton t b ih =>
    rw [literalText_append_singleton] at split
    have last : ∀ more, front = literalText t ++ more → literalByte b = more ++ quote :: back →
        Odd (slashesAtEnd front) := by
      rintro more rfl written
      rcases literalByte_cases b with ⟨plain, ordinary⟩ | ⟨e, escaped, -⟩
      · have quoted : quote ∈ [b] := plain ▸ written ▸ by simp
        exact absurd (List.mem_singleton.mp quoted ▸ by decide) ordinary
      · rw [escaped] at written
        obtain rfl : more = [byte '\\'] := by
          match more, written with
          | [], same => exact absurd (List.cons.inj same).1 (by decide)
          | [c], same => rw [(List.cons.inj same).1]
          | _ :: _ :: _, same => simp at same
        rw [slashesAtEnd_append_singleton, if_pos rfl]
        exact (even_slashes_literalText t).add_one
    rcases List.append_eq_append_iff.mp split with ⟨more, rfl, written⟩ | ⟨more, earlier, written⟩
    · exact last more rfl written
    · cases more with
      | nil => exact last [] (by simpa using earlier.symm) (by simpa using written.symm)
      | cons c more =>
        obtain ⟨rfl, -⟩ := List.cons.inj written
        exact ih earlier

/-! ## Tokens -/

/-- What is written for a text is one token of code that stands for it. -/
structure Stands (t : Bytes) : Prop where
  token : Code.read .free (literal t) = some ([t], .closed)
  unbroken : ∀ b, b ∈ [byte '\n', byte '\r', byte '\t'] → b ∉ literal t
  quotes_escaped : ∀ front back, literalText t = front ++ quote :: back → Odd (slashesAtEnd front)
  escapes_whole : Even (slashesAtEnd (literalText t))

theorem stands (t : Bytes) : Stands t :=
  ⟨Code.read_literal t, fun _ breaks => not_mem_literal breaks t,
    fun _ _ split => odd_slashes_of_quote split, even_slashes_literalText t⟩

end Naming

end HeaderForge
