import HeaderForge.Document.Node
import HeaderForge.Document.Number
/-!
# Well-formed trees

The trees that a document can mean: the keys of every object are pairwise distinct, and every number
is one of the number grammar. What a tree's type already says (an object has one key for each child,
a scalar has no children, null and truth values carry no text) needs no condition.

1. `Node.WellFormed` is the condition, at every depth. `Node.DistinctKeys` is the part of it that is
   about keys.
2. `Node.depth` counts the levels below the root.
3. `Number.byte_of_isLexeme` says what bytes a number is written with.
-/

namespace HeaderForge

namespace Node

mutual
/-- Keys are distinct in every object, and numbers are lexemes. -/
def WellFormed : Node → Prop
  | num lexeme => Number.isLexeme lexeme = true
  | arr items => WellFormedItems items
  | obj entries => (entries.map Prod.fst).Nodup ∧ WellFormedEntries entries
  | null | bool _ | str _ => True

def WellFormedItems : List Node → Prop
  | [] => True
  | item :: rest => WellFormed item ∧ WellFormedItems rest

def WellFormedEntries : List (Bytes × Node) → Prop
  | [] => True
  | (_, value) :: rest => WellFormed value ∧ WellFormedEntries rest
end

mutual
/-- Keys are distinct in every object. -/
def DistinctKeys : Node → Prop
  | arr items => DistinctItems items
  | obj entries => (entries.map Prod.fst).Nodup ∧ DistinctEntries entries
  | null | bool _ | num _ | str _ => True

def DistinctItems : List Node → Prop
  | [] => True
  | item :: rest => DistinctKeys item ∧ DistinctItems rest

def DistinctEntries : List (Bytes × Node) → Prop
  | [] => True
  | (_, value) :: rest => DistinctKeys value ∧ DistinctEntries rest
end

mutual
/-- How many levels of a tree lie below its root. -/
def depth : Node → Nat
  | arr items => depthOfItems items
  | obj entries => depthOfEntries entries
  | null | bool _ | num _ | str _ => 0

def depthOfItems : List Node → Nat
  | [] => 0
  | item :: rest => max (depth item + 1) (depthOfItems rest)

def depthOfEntries : List (Bytes × Node) → Nat
  | [] => 0
  | (_, value) :: rest => max (depth value + 1) (depthOfEntries rest)
end

theorem wellFormedItems_cons {item : Node} {rest : List Node} :
    WellFormedItems (item :: rest) ↔ item.WellFormed ∧ WellFormedItems rest := by
  rw [WellFormedItems]

theorem wellFormedEntries_cons {entry : Bytes × Node} {rest : List (Bytes × Node)} :
    WellFormedEntries (entry :: rest) ↔ entry.2.WellFormed ∧ WellFormedEntries rest := by
  rw [WellFormedEntries]

theorem wellFormedItems_iff {items : List Node} :
    WellFormedItems items ↔ ∀ n, n ∈ items → n.WellFormed := by
  induction items with
  | nil => simp [WellFormedItems]
  | cons item rest ih => simp [WellFormedItems, ih]

theorem wellFormedEntries_iff {entries : List (Bytes × Node)} :
    WellFormedEntries entries ↔ ∀ e, e ∈ entries → e.2.WellFormed := by
  induction entries with
  | nil => simp [WellFormedEntries]
  | cons entry rest ih => simp [WellFormedEntries, ih]

theorem distinctItems_iff {items : List Node} :
    DistinctItems items ↔ ∀ n, n ∈ items → n.DistinctKeys := by
  induction items with
  | nil => simp [DistinctItems]
  | cons item rest ih => simp [DistinctItems, ih]

theorem distinctEntries_iff {entries : List (Bytes × Node)} :
    DistinctEntries entries ↔ ∀ e, e ∈ entries → e.2.DistinctKeys := by
  induction entries with
  | nil => simp [DistinctEntries]
  | cons entry rest ih => simp [DistinctEntries, ih]

mutual
theorem WellFormed.distinctKeys {n : Node} (h : n.WellFormed) : n.DistinctKeys := by
  cases n with
  | arr items => exact distinctItems_of_wellFormed h
  | obj entries => exact ⟨h.1, distinctEntries_of_wellFormed h.2⟩
  | null | bool | num | str => trivial

theorem distinctItems_of_wellFormed {items : List Node} (h : WellFormedItems items) :
    DistinctItems items := by
  cases items with
  | nil => trivial
  | cons item rest => exact ⟨WellFormed.distinctKeys h.1, distinctItems_of_wellFormed h.2⟩

theorem distinctEntries_of_wellFormed {entries : List (Bytes × Node)}
    (h : WellFormedEntries entries) : DistinctEntries entries := by
  cases entries with
  | nil => trivial
  | cons entry rest => exact ⟨WellFormed.distinctKeys h.1, distinctEntries_of_wellFormed h.2⟩
end

end Node

/-- What a computation shows of every byte. -/
theorem Byte.of_all {p : UInt8 → Bool}
    (h : (List.range 256).all (fun n => p n.toUInt8) = true) : ∀ b, p b = true := by
  intro b
  have shown := List.all_eq_true.mp h b.toNat (List.mem_range.mpr b.toNat_lt)
  simpa using shown

/-! ## The bytes of numbers -/

namespace Number

/-- The bytes that numbers are written with. -/
def isNumberByte (b : UInt8) : Bool :=
  Byte.isDigit b || b == byte '-' || b == byte '+' || b == byte '.' || b == byte 'e' || b == byte 'E'

/-- What a step of the grammar takes off the front of a text consists of number bytes. -/
def Takes (t rest : Bytes) : Prop := ∃ front, t = front ++ rest ∧ ∀ b, b ∈ front → isNumberByte b

theorem Takes.refl (t : Bytes) : Takes t t := ⟨[], rfl, by simp⟩

theorem Takes.trans {t u v : Bytes} (first : Takes t u) (second : Takes u v) : Takes t v := by
  obtain ⟨a, rfl, ha⟩ := first
  obtain ⟨b, rfl, hb⟩ := second
  refine ⟨a ++ b, by simp, fun c hc => ?_⟩
  cases List.mem_append.mp hc with
  | inl h => exact ha c h
  | inr h => exact hb c h

theorem Takes.cons {b : UInt8} {t rest : Bytes} (hb : isNumberByte b) (h : Takes t rest) :
    Takes (b :: t) rest :=
  Takes.trans ⟨[b], rfl, by simpa using hb⟩ h

theorem takes_of_digits? {t rest : Bytes} (h : digits? t = some rest) : Takes t rest := by
  unfold digits? at h
  split at h
  · exact nomatch h
  · split at h
    · cases h
      refine ⟨_, (List.takeWhile_append_dropWhile).symm, fun b hb => ?_⟩
      have digit : Byte.isDigit b = true := List.all_eq_true.mp List.all_takeWhile b hb
      simp [isNumberByte, digit]
    · exact nomatch h

theorem takes_of_integer? {t rest : Bytes} (h : integer? t = some rest) : Takes t rest := by
  unfold integer? at h
  split at h
  · split at h
    · exact nomatch h
    · exact takes_of_digits? h
  · exact takes_of_digits? h

theorem takes_of_fraction? {t rest : Bytes} (h : fraction? t = some rest) : Takes t rest := by
  unfold fraction? at h
  split at h
  · next b after =>
    split at h
    · next point => exact Takes.cons (by simp [isNumberByte, beq_iff_eq.mp point]) (takes_of_digits? h)
    · cases h
      exact Takes.refl _
  · cases h
    exact Takes.refl _

theorem takes_dropSign (t : Bytes) : Takes t (dropSign t) := by
  unfold dropSign
  split
  · split
    · next sign =>
      refine Takes.cons ?_ (Takes.refl _)
      cases (Bool.or_eq_true _ _).mp sign with
      | inl plus => simp [isNumberByte, beq_iff_eq.mp plus]
      | inr minus => simp [isNumberByte, beq_iff_eq.mp minus]
    · exact Takes.refl _
  · exact Takes.refl _

theorem takes_of_exponent? {t rest : Bytes} (h : exponent? t = some rest) : Takes t rest := by
  unfold exponent? at h
  split at h
  · next b after =>
    split at h
    · next letter =>
      refine Takes.cons ?_ (Takes.trans (takes_dropSign after) (takes_of_digits? h))
      cases (Bool.or_eq_true _ _).mp letter with
      | inl small => simp [isNumberByte, beq_iff_eq.mp small]
      | inr capital => simp [isNumberByte, beq_iff_eq.mp capital]
    · cases h
      exact Takes.refl _
  · cases h
    exact Takes.refl _

theorem takes_dropMinus (t : Bytes) : Takes t (dropMinus t) := by
  unfold dropMinus
  split
  · split
    · next minus => exact Takes.cons (by simp [isNumberByte, beq_iff_eq.mp minus]) (Takes.refl _)
    · exact Takes.refl _
  · exact Takes.refl _

/-- A number is written with number bytes only. -/
theorem byte_of_isLexeme {t : Bytes} (h : isLexeme t = true) {b : UInt8} (hb : b ∈ t) :
    isNumberByte b = true := by
  unfold isLexeme at h
  obtain ⟨u, hu, exponent⟩ := Option.bind_eq_some_iff.mp (beq_iff_eq.mp h)
  obtain ⟨v, integer, fraction⟩ := Option.bind_eq_some_iff.mp hu
  have whole : Takes t [] :=
    ((takes_dropMinus t).trans (takes_of_integer? integer)).trans
      ((takes_of_fraction? fraction).trans (takes_of_exponent? exponent))
  obtain ⟨front, rfl, all⟩ := whole
  exact all b (by simpa using hb)

theorem isDigit_of_digits? {b : UInt8} {t rest : Bytes} (h : digits? (b :: t) = some rest) :
    Byte.isDigit b = true := by
  by_cases digit : Byte.isDigit b = true
  · exact digit
  · simp [digits?, digit] at h

theorem isDigit_of_integer? {b : UInt8} {t rest : Bytes} (h : integer? (b :: t) = some rest) :
    Byte.isDigit b = true := by
  unfold integer? at h
  split at h
  · next equal =>
    cases equal
    split at h
    · exact nomatch h
    · exact isDigit_of_digits? h
  · exact isDigit_of_digits? h

/-- A number starts with a digit or a minus. -/
theorem head_of_isLexeme {t : Bytes} (h : isLexeme t = true) :
    ∃ b rest, t = b :: rest ∧ (Byte.isDigit b = true ∨ b = byte '-') := by
  cases t with
  | nil => exact absurd h (by decide)
  | cons b rest =>
    refine ⟨b, rest, rfl, ?_⟩
    by_cases minus : b = byte '-'
    · exact Or.inr minus
    · obtain ⟨u, hu, _⟩ := Option.bind_eq_some_iff.mp (beq_iff_eq.mp h)
      obtain ⟨v, integer, _⟩ := Option.bind_eq_some_iff.mp hu
      have kept : dropMinus (b :: rest) = b :: rest := by simp [dropMinus, minus]
      rw [kept] at integer
      exact Or.inl (isDigit_of_integer? integer)

end Number

end HeaderForge
