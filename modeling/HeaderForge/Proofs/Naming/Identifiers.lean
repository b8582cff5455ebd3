import HeaderForge.Build.Types
import HeaderForge.Proofs.Naming
import Mathlib.Data.List.Nodup
import Mathlib.Data.List.Perm.Subperm
/-!
# Identifiers of generated code

Fields, members and slots are named after arbitrary bytes of a document. Whatever these are, the
names are identifiers, and a number after a name keeps it one. As two texts may become the same
identifier, a later one takes a number that makes it a new name.

1. `isIdentifier_sanitize` and `isIdentifier_memberName`: both conversions give identifiers, because
   no keyword ends in an underscore or a digit.
2. `Taken.unused_not_mem`: of as many numbers as there are names one is free.
3. `nodup_apart`: names that are given one after the other are all different.
-/

namespace HeaderForge

/-! ## Numbers -/

theorem toNat_byte_of_isDigit {c : Char} (h : c.isDigit = true) :
    (byte c).toNat = c.toNat ∧ 48 ≤ c.toNat ∧ c.toNat ≤ 57 := by
  have bounds : 48 ≤ c.toNat ∧ c.toNat ≤ 57 := by
    simpa [Char.isDigit, UInt32.le_iff_toNat_le] using h
  refine ⟨?_, bounds⟩
  show c.toNat % 256 = c.toNat
  omega

theorem natText_ne_nil (n : Nat) : natText n ≠ [] := by
  simp [natText, Nat.toDigits_ne_nil]

theorem isDigit_of_mem_toDigits {c : Char} {n : Nat} (h : c ∈ Nat.toDigits 10 n) :
    c.isDigit = true :=
  Nat.isDigit_of_mem_toDigits (by decide) (by decide) h

theorem isDigit_of_mem_natText {b : UInt8} {n : Nat} (h : b ∈ natText n) :
    Byte.isDigit b = true := by
  obtain ⟨c, member, rfl⟩ := List.mem_map.mp h
  obtain ⟨same, bounds⟩ := toNat_byte_of_isDigit (isDigit_of_mem_toDigits member)
  simp [Byte.isDigit, UInt8.le_iff_toNat_le, same, bounds]

/-- A number can be read back from its digits. -/
theorem natText_inj {m n : Nat} (h : natText m = natText n) : m = n := by
  have digits : ∀ n, (natText n).map (fun b => Char.ofNat b.toNat) = Nat.toDigits 10 n := by
    intro n
    rw [natText, List.map_map]
    refine (List.map_congr_left fun c member => ?_).trans (List.map_id _)
    show Char.ofNat (byte c).toNat = c
    rw [(toNat_byte_of_isDigit (isDigit_of_mem_toDigits member)).1, Char.ofNat_toNat]
  have same := congrArg (fun t => Nat.ofDigitChars 10 (t.map fun b => Char.ofNat b.toNat) 0) h
  simpa [digits] using same

namespace Naming

/-! ## Words that are no keywords -/

/-- A name that C++ accepts where a name can stand. -/
structure IsIdentifier (word : Bytes) : Prop where
  nonempty : word ≠ []
  isWord : ∀ b, b ∈ word → Byte.isWord b = true
  noDigit : startsWithDigit word = false
  noKeyword : isKeyword word = false

/-- Every keyword ends in a small letter, and none is the name of a literal without letters or
digits. -/
theorem keywords_ends : keywords.all (fun k =>
    (k.getLast?.map Byte.isLower).getD false && k != bytes "unknown") = true := by
  decide +kernel

theorem noKeyword_append {b : UInt8} (h : Byte.isLower b = false) (word : Bytes) :
    isKeyword (word ++ [b]) = false := by
  rw [isKeyword, List.contains_eq_mem, decide_eq_false_iff_not]
  intro member
  have last := (Bool.and_eq_true_iff.mp (List.all_eq_true.mp keywords_ends _ member)).1
  rw [List.getLast?_append] at last
  simp [h] at last

theorem noKeyword_unknown : isKeyword (bytes "unknown") = false := by
  rw [isKeyword, List.contains_eq_mem, decide_eq_false_iff_not]
  intro member
  have other := (Bool.and_eq_true_iff.mp (List.all_eq_true.mp keywords_ends _ member)).2
  exact absurd rfl (bne_iff_ne.mp other)

theorem startsWithDigit_append {word : Bytes} (h : word ≠ []) (more : Bytes) :
    startsWithDigit (word ++ more) = startsWithDigit word := by
  cases word with
  | nil => exact absurd rfl h
  | cons b rest => rfl

theorem isIdentifier_avoidKeyword {word : Bytes} (nonempty : word ≠ [])
    (isWord : ∀ b, b ∈ word → Byte.isWord b = true) (noDigit : startsWithDigit word = false) :
    IsIdentifier (avoidKeyword word) := by
  unfold avoidKeyword
  split
  · refine ⟨by simp, fun b h => ?_, ?_, noKeyword_append (by decide) word⟩
    · cases List.mem_append.mp h with
      | inl before => exact isWord b before
      | inr last => exact List.mem_singleton.mp last ▸ by decide
    · rw [startsWithDigit_append nonempty, noDigit]
  · next free => exact ⟨nonempty, isWord, noDigit, by simpa using free⟩

theorem isIdentifier_sanitize (name : Bytes) : IsIdentifier (sanitize name) := by
  unfold sanitize
  have isWord : ∀ b, b ∈ name.map (fun b => if Byte.isWord b then b else byte '_') →
      Byte.isWord b = true := by
    intro b h
    obtain ⟨c, -, rfl⟩ := List.mem_map.mp h
    split
    · assumption
    · decide
  dsimp only
  split
  · have all : (bytes "_").all Byte.isWord = true := by decide
    exact ⟨by decide, List.all_eq_true.mp all, by decide, noKeyword_append (by decide) []⟩
  · next nonempty =>
    have nonempty := mt List.isEmpty_iff.mpr nonempty
    split
    · refine isIdentifier_avoidKeyword (by simp) (fun b h => ?_) rfl
      cases List.mem_cons.mp h with
      | inl first => exact first ▸ by decide
      | inr later => exact isWord b later
    · next noDigit => exact isIdentifier_avoidKeyword nonempty isWord (by simpa using noDigit)

/-! ## Members -/

theorem isWord_of_mem_memberWords {inWord : Bool} {b : UInt8} {literal : Bytes}
    (h : b ∈ memberWords inWord literal) : Byte.isWord b = true := by
  induction literal generalizing inWord with
  | nil => exact nomatch h
  | cons c rest ih =>
    unfold memberWords at h
    split at h
    · next alnum =>
      cases List.mem_cons.mp h with
      | inl here => simp [Byte.isWord, here, alnum]
      | inr later => exact ih later
    · split at h
      · cases List.mem_cons.mp h with
        | inl here => exact here ▸ by decide
        | inr later => exact ih later
      · exact ih h

theorem isIdentifier_memberName (literal : Bytes) : IsIdentifier (memberName literal) := by
  unfold memberName
  have isWord : ∀ b, b ∈ dropEndWhile (· == byte '_') (memberWords false literal) →
      Byte.isWord b = true := fun b h => isWord_of_mem_memberWords (mem_of_mem_dropEndWhile h)
  dsimp only
  split
  · have all : (bytes "unknown").all Byte.isWord = true := by decide
    exact ⟨by decide, List.all_eq_true.mp all, by decide, noKeyword_unknown⟩
  · next nonempty =>
    have nonempty := mt List.isEmpty_iff.mpr nonempty
    split
    · refine isIdentifier_avoidKeyword (by simp [bytes]) (fun b h => ?_) rfl
      cases List.mem_append.mp h with
      | inl front =>
        have all : (bytes "value_").all Byte.isWord = true := by decide
        exact List.all_eq_true.mp all b front
      | inr later => exact isWord b later
    · next noDigit => exact isIdentifier_avoidKeyword nonempty isWord (by simpa using noDigit)

/-! ## Numbered names -/

theorem IsIdentifier.numbered {name : Bytes} (h : IsIdentifier name) (n : Nat) :
    IsIdentifier (numbered name n) := by
  obtain ⟨front, last, digits⟩ : ∃ front last, natText n = front ++ [last] :=
    ⟨_, _, (List.dropLast_append_getLast (natText_ne_nil n)).symm⟩
  have isDigit : ∀ b, b ∈ natText n → Byte.isDigit b = true := fun _ => isDigit_of_mem_natText
  refine ⟨by simp [Naming.numbered], fun b member => ?_, ?_, ?_⟩
  · rcases List.mem_append.mp member with before | after
    · exact h.isWord b before
    · cases List.mem_cons.mp after with
      | inl underscore => exact underscore ▸ by decide
      | inr digit => simp [Byte.isWord, Byte.isAlnum, isDigit b digit]
  · rw [Naming.numbered, startsWithDigit_append h.nonempty, h.noDigit]
  · have digit : Byte.isDigit last = true := isDigit last (by simp [digits])
    have notLower : Byte.isLower last = false := by
      simp only [Byte.isDigit, Byte.isLower, Bool.and_eq_true, decide_eq_true_eq,
        Bool.and_eq_false_iff, decide_eq_false_iff_not, UInt8.le_iff_toNat_le] at *
      have : (0x61 : UInt8).toNat = 0x61 := rfl
      have : (0x39 : UInt8).toNat = 0x39 := rfl
      omega
    rw [Naming.numbered, digits, ← List.cons_append, ← List.append_assoc]
    exact noKeyword_append notLower _

theorem numbered_inj {name : Bytes} {m n : Nat} (h : numbered name m = numbered name n) :
    m = n := by
  have tails := List.append_cancel_left h
  exact natText_inj (List.cons.inj tails).2

theorem numbered_ne (name : Bytes) (n : Nat) : numbered name n ≠ name := by
  intro same
  have lengths := congrArg List.length same
  simp [numbered] at lengths

/-! ## Unused names -/

namespace Taken

/-- The names that are used so far are the ones of a list, each counted. -/
structure Covers (used : Taken) (names : List Bytes) : Prop where
  count : used.count = names.length
  has : ∀ name, used.has name = true ↔ name ∈ names

theorem covers_none : none.Covers [] := ⟨rfl, fun name => by simp [none, has]⟩

theorem Covers.take {used : Taken} {names : List Bytes} (h : used.Covers names) (name : Bytes) :
    (used.take name).Covers (name :: names) := by
  refine ⟨by simp [Taken.take, h.count], fun other => ?_⟩
  have before := h.has other
  simp only [Taken.has] at before
  simp [Taken.take, Taken.has, before]

theorem firstFree_eq_numbered (used : KeySet) (name : Bytes) (bound n : Nat) :
    ∃ k, firstFree used name bound n = numbered name k := by
  induction bound generalizing n with
  | zero => exact ⟨n, rfl⟩
  | succ bound ih =>
    rw [firstFree]
    split
    · exact ih (n + 1)
    · exact ⟨n, rfl⟩

/-- The search stops at a free number unless it runs out before it comes to one. -/
theorem contains_firstFree {used : KeySet} {name : Bytes} {bound n : Nat}
    (free : ∃ k, n ≤ k ∧ k < n + bound ∧ used.contains (numbered name k) = false) :
    used.contains (firstFree used name bound n) = false := by
  induction bound generalizing n with
  | zero =>
    obtain ⟨k, above, below, -⟩ := free
    omega
  | succ bound ih =>
    obtain ⟨k, above, below, unused⟩ := free
    rw [firstFree]
    split
    · next taken =>
      have other : k ≠ n := by
        rintro rfl
        rw [unused] at taken
        exact nomatch taken
      exact ih ⟨k, by omega, by omega, unused⟩
    · next unused => simpa using unused

/-- The name that is given is none of the used ones. If it is used itself, then all numbered names
that are tried would be one more than there are. -/
theorem unused_not_mem {used : Taken} {names : List Bytes} (h : used.Covers names) (name : Bytes) :
    used.unused name ∉ names := by
  unfold unused
  split
  · next taken =>
    rw [← h.has, Bool.not_eq_true]
    refine contains_firstFree ?_
    by_contra none_free
    have all : ∀ k, 2 ≤ k → k < 2 + used.count → numbered name k ∈ names := by
      intro k above below
      rw [← h.has]
      by_contra unused
      exact none_free ⟨k, above, below, by simpa [has] using unused⟩
    have tried : name :: (List.range' 2 used.count).map (numbered name) ⊆ names := by
      intro other member
      rcases List.mem_cons.mp member with rfl | later
      · exact (h.has other).mp taken
      · obtain ⟨k, range, rfl⟩ := List.mem_map.mp later
        obtain ⟨above, below⟩ := List.mem_range'_1.mp range
        exact all k above below
    have distinct : (name :: (List.range' 2 used.count).map (numbered name)).Nodup := by
      refine List.nodup_cons.mpr ⟨fun member => ?_, ?_⟩
      · obtain ⟨k, -, same⟩ := List.mem_map.mp member
        exact numbered_ne name k same
      · exact List.Nodup.map (fun _ _ => numbered_inj) List.nodup_range'
    have length := (distinct.subperm tried).length_le
    rw [List.length_cons, List.length_map, List.length_range', h.count] at length
    omega
  · next free => exact fun member => free ((h.has name).mpr member)

theorem isIdentifier_unused {name : Bytes} (h : IsIdentifier name) (used : Taken) :
    IsIdentifier (used.unused name) := by
  unfold unused
  split
  · obtain ⟨k, numbered⟩ := firstFree_eq_numbered used.names name used.count 2
    exact numbered ▸ h.numbered k
  · exact h

end Taken

/-- The names that wishes get one after the other, each one unlike all before it. -/
def apart : Taken → List Bytes → List Bytes
  | _, [] => []
  | used, name :: rest => used.unused name :: apart (used.take (used.unused name)) rest

theorem nodup_apart {used : Taken} {names : List Bytes} (h : used.Covers names)
    (wishes : List Bytes) :
    (apart used wishes).Nodup ∧ ∀ name, name ∈ apart used wishes → name ∉ names := by
  induction wishes generalizing used names with
  | nil => exact ⟨List.nodup_nil, fun _ member => nomatch member⟩
  | cons wish rest ih =>
    obtain ⟨distinct, fresh⟩ := ih (h.take (used.unused wish))
    refine ⟨List.nodup_cons.mpr ⟨fun again => ?_, distinct⟩, fun name member => ?_⟩
    · exact fresh _ again List.mem_cons_self
    · cases List.mem_cons.mp member with
      | inl here => exact here ▸ Taken.unused_not_mem h wish
      | inr later => exact fun before => fresh name later (List.mem_cons_of_mem _ before)

theorem isIdentifier_of_mem_apart (used : Taken) {wishes : List Bytes}
    (h : ∀ wish, wish ∈ wishes → IsIdentifier wish) :
    ∀ name, name ∈ apart used wishes → IsIdentifier name := by
  induction wishes generalizing used with
  | nil => exact fun _ member => nomatch member
  | cons wish rest ih =>
    intro name member
    cases List.mem_cons.mp member with
    | inl here => exact here ▸ Taken.isIdentifier_unused (h wish List.mem_cons_self) used
    | inr later => exact ih _ (fun other there => h other (List.mem_cons_of_mem _ there)) name later

end Naming

end HeaderForge
