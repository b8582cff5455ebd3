import HeaderForge.Files.Path
import HeaderForge.Naming
/-!
# Names of headers

The name of a header is a plain one: whatever the schema is called, it has no slash and no zero
byte, so it stays in the folder that it is put in.
-/

namespace HeaderForge

theorem mem_of_mem_dropEndWhile {α : Type} {p : α → Bool} {x : α} {xs : List α}
    (h : x ∈ dropEndWhile p xs) : x ∈ xs := by
  induction xs with
  | nil => exact h
  | cons y xs ih =>
    unfold dropEndWhile at h
    split at h
    · split at h
      · exact nomatch h
      · exact List.mem_cons.mpr (Or.inl (List.mem_singleton.mp h))
    · next kept _ =>
      cases List.mem_cons.mp h with
      | inl here => exact List.mem_cons.mpr (Or.inl here)
      | inr later => exact List.mem_cons_of_mem y (ih later)

namespace Naming

/-- The bytes of file names: small letters, digits and underscores. -/
def isFileByte (b : UInt8) : Bool := Byte.isLower b || Byte.isDigit b || b == byte '_'

theorem isFileByte_toLower {b : UInt8} (h : Byte.isAlnum b = true) :
    isFileByte (Byte.toLower b) = true := by
  unfold Byte.toLower
  split
  · next upper =>
    have small : Byte.isLower (b + 0x20) = true := by
      simp [Byte.isUpper, Byte.isLower, UInt8.le_iff_toNat_le, UInt8.toNat_add] at *
      omega
    simp [isFileByte, small]
  · next notUpper =>
    simp only [Byte.isAlnum, Byte.isLetter, notUpper, Bool.false_or] at h
    simp [isFileByte, h]

theorem isFileByte_of_mem_snakeWords {inWord : Bool} {previous b : UInt8} {name : Bytes}
    (h : b ∈ snakeWords inWord previous name) : isFileByte b = true := by
  induction name generalizing inWord previous with
  | nil => exact nomatch h
  | cons c name ih =>
    unfold snakeWords at h
    split at h
    · next alnum =>
      have inWord : ∀ rest, b ∈ Byte.toLower c :: snakeWords true c rest → rest = name →
          isFileByte b = true := by
        rintro rest hb rfl
        cases List.mem_cons.mp hb with
        | inl here => exact here ▸ isFileByte_toLower alnum
        | inr later => exact ih later
      dsimp only at h
      split at h
      · cases List.mem_cons.mp h with
        | inl here => exact here ▸ rfl
        | inr word => exact inWord name word rfl
      · exact inWord name h rfl
    · split at h
      · cases List.mem_cons.mp h with
        | inl here => exact here ▸ rfl
        | inr later => exact ih later
      · exact ih h

/-- What the name of a header is made of. -/
theorem mem_headerFileName {b : UInt8} {schema : Bytes} (h : b ∈ headerFileName schema) :
    isFileByte b = true ∨ b = byte '.' := by
  rcases List.mem_append.mp h with stem | ending
  · left
    split at stem
    · have all : (bytes "model").all isFileByte = true := by decide
      exact List.all_eq_true.mp all b stem
    · exact isFileByte_of_mem_snakeWords (mem_of_mem_dropEndWhile stem)
  · have all : (bytes ".hpp").all (fun c => isFileByte c || c == byte '.') = true := by decide
    simpa using List.all_eq_true.mp all b ending

theorem slash_not_mem_headerFileName (schema : Bytes) : Path.slash ∉ headerFileName schema := by
  intro h
  exact absurd (mem_headerFileName h) (by decide)

theorem zero_not_mem_headerFileName (schema : Bytes) : 0 ∉ headerFileName schema := by
  intro h
  exact absurd (mem_headerFileName h) (by decide)

end Naming

end HeaderForge
