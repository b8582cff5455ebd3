import HeaderForge.Proofs.Document.Reading
import Mathlib.Tactic.SplitIfs
/-!
# The grammar of JSON

What a JSON text is, said by rules and not by a reader: a text derives a number, a string or a tree
where the rules put it together. Numbers and strings are settled here, down to their bytes, and the
reader's steps for them are shown to follow the rules.

1. `Number.Spelled` is the number grammar, and `Number.isLexeme_iff` decides it.
2. `Quoted.Encodes` is the byte form of a code point, and `Json.Content` what may stand between the
   quotes of a string, together with the bytes it means. `Json.pieces_assemble_iff` says that the
   reader of strings follows it.
3. `Json.Value` and `Json.Element` are the values, without and with the blanks around them.
-/

namespace HeaderForge

/-! ## Numbers -/

namespace Number

/-- One or more digits. -/
structure Digits (t : Bytes) : Prop where
  nonempty : t ≠ []
  digit : ∀ b, b ∈ t → Byte.isDigit b = true

/-- The integer part: a zero alone, or digits of which the first is none. -/
inductive Whole : Bytes → Prop
  | zero : Whole [byte '0']
  | digits {first : UInt8} {rest : Bytes} :
      first ≠ byte '0' → Digits (first :: rest) → Whole (first :: rest)

inductive Fraction : Bytes → Prop
  | absent : Fraction []
  | digits {ds : Bytes} : Digits ds → Fraction (byte '.' :: ds)

inductive Exponent : Bytes → Prop
  | absent : Exponent []
  | digits {letter : UInt8} {sign ds : Bytes} :
      letter = byte 'e' ∨ letter = byte 'E' →
      sign = [] ∨ sign = [byte '+'] ∨ sign = [byte '-'] →
      Digits ds → Exponent (letter :: (sign ++ ds))

/-- A number: an optional minus, an integer part, and what may follow it. -/
inductive Spelled : Bytes → Prop
  | mk {minus whole fraction exponent : Bytes} :
      minus = [] ∨ minus = [byte '-'] → Whole whole → Fraction fraction → Exponent exponent →
      Spelled (minus ++ (whole ++ (fraction ++ exponent)))

/-- A text in front of which a run of digits ends. -/
def EndsDigits (t : Bytes) : Prop := ∀ b rest, t = b :: rest → Byte.isDigit b = false

theorem endsDigits_nil : EndsDigits [] := fun _ _ h => nomatch h

theorem endsDigits_cons {b : UInt8} (h : Byte.isDigit b = false) (t : Bytes) :
    EndsDigits (b :: t) := by
  intro c rest equal
  cases equal
  exact h

theorem Digits.head {b : UInt8} {t : Bytes} (h : Digits (b :: t)) : Byte.isDigit b = true :=
  h.digit b List.mem_cons_self

theorem Fraction.endsDigits {fraction exponent : Bytes} (h : Fraction fraction)
    (after : EndsDigits exponent) : EndsDigits (fraction ++ exponent) := by
  cases h with
  | absent => exact after
  | digits => exact endsDigits_cons (by decide) _

theorem Exponent.endsDigits {t : Bytes} (h : Exponent t) : EndsDigits t := by
  cases h with
  | absent => exact endsDigits_nil
  | digits letter =>
    rcases letter with rfl | rfl
    · exact endsDigits_cons (by decide) _
    · exact endsDigits_cons (by decide) _

/-! The steps of the check take the parts of a number off the front of a text. -/

theorem digits?_eq_some_iff {t rest : Bytes} :
    digits? t = some rest ↔ ∃ ds, t = ds ++ rest ∧ Digits ds ∧ EndsDigits rest := by
  constructor
  · intro h
    cases t with
    | nil => exact nomatch h
    | cons b t =>
      have first : Byte.isDigit b = true := isDigit_of_digits? h
      simp only [digits?, first, if_true, Option.some.injEq] at h
      refine ⟨(b :: t).takeWhile Byte.isDigit, ?_, ⟨?_, ?_⟩, fun c u equal => ?_⟩
      · rw [← h, List.takeWhile_append_dropWhile]
      · simp [first]
      · exact fun c hc => List.all_eq_true.mp List.all_takeWhile c hc
      · have stops := List.head?_dropWhile_not Byte.isDigit (b :: t)
        rw [h, equal] at stops
        simpa using stops
  · rintro ⟨ds, rfl, digits, ends⟩
    have stop : rest.dropWhile Byte.isDigit = rest := by
      cases rest with
      | nil => rfl
      | cons b u => simp [ends b u rfl]
    cases ds with
    | nil => exact absurd rfl digits.nonempty
    | cons d ds =>
      have dropped : (d :: ds ++ rest).dropWhile Byte.isDigit = rest := by
        rw [List.dropWhile_append_of_pos digits.digit, stop]
      rw [List.cons_append] at dropped ⊢
      simp only [digits?, digits.head, if_true, dropped]

theorem whole_of_integer? {t rest : Bytes} (h : integer? t = some rest) :
    ∃ whole, t = whole ++ rest ∧ Whole whole := by
  have plain : digits? t = some rest := by
    unfold integer? at h
    split at h
    · split at h
      · exact nomatch h
      · exact h
    · exact h
  obtain ⟨ds, rfl, digits, ends⟩ := digits?_eq_some_iff.mp plain
  refine ⟨ds, rfl, ?_⟩
  match ds, digits with
  | [], digits => exact absurd rfl digits.nonempty
  | first :: more, digits =>
    by_cases zero : first = byte '0'
    · -- After a zero the integer part is over, so there is no other digit.
      subst zero
      cases more with
      | nil => exact .zero
      | cons second more =>
        have digit := digits.digit second (by simp)
        simp [integer?, digit] at h
    · exact .digits zero digits

theorem integer?_whole {whole rest : Bytes} (h : Whole whole) (ends : EndsDigits rest) :
    integer? (whole ++ rest) = some rest := by
  cases h with
  | zero =>
    have read : digits? (byte '0' :: rest) = some rest :=
      digits?_eq_some_iff.mpr ⟨[byte '0'], rfl, ⟨by simp, by simp [Byte.isDigit, byte]⟩, ends⟩
    cases rest with
    | nil => exact read
    | cons b rest =>
      simp only [List.cons_append, List.nil_append, integer?, ends b rest rfl, Bool.and_false,
        Bool.false_eq_true, if_false]
      exact read
  | @digits first more nonzero digits =>
    have read := digits?_eq_some_iff.mpr ⟨_, rfl, digits, ends⟩
    rw [List.cons_append] at read ⊢
    cases h : more ++ rest with
    | nil => rw [h] at read; exact read
    | cons b u =>
      rw [h] at read
      simp only [integer?, beq_eq_false_iff_ne.mpr nonzero, Bool.false_and, Bool.false_eq_true,
        if_false, read]

theorem fraction_of_fraction? {t rest : Bytes} (h : fraction? t = some rest) :
    ∃ fraction, t = fraction ++ rest ∧ Fraction fraction := by
  unfold fraction? at h
  split at h
  · split at h
    · next point =>
      obtain ⟨ds, rfl, digits, -⟩ := digits?_eq_some_iff.mp h
      rw [beq_iff_eq.mp point]
      exact ⟨_, rfl, .digits digits⟩
    · cases h
      exact ⟨[], rfl, .absent⟩
  · cases h
    exact ⟨[], rfl, .absent⟩

theorem fraction?_fraction {fraction exponent : Bytes} (h : Fraction fraction)
    (after : Exponent exponent) : fraction? (fraction ++ exponent) = some exponent := by
  cases h with
  | digits digits =>
    rw [List.cons_append]
    simp only [fraction?, beq_self_eq_true, if_true]
    exact digits?_eq_some_iff.mpr ⟨_, rfl, digits, after.endsDigits⟩
  | absent =>
    cases after with
    | absent => rfl
    | digits letter => rcases letter with rfl | rfl <;> rfl

theorem exponent_of_exponent? {t : Bytes} (h : exponent? t = some []) : Exponent t := by
  unfold exponent? at h
  split at h
  · next b rest =>
    split at h
    · next letter =>
      obtain ⟨ds, split, digits, -⟩ := digits?_eq_some_iff.mp h
      rw [List.append_nil] at split
      have letter : b = byte 'e' ∨ b = byte 'E' := by simpa using letter
      unfold dropSign at split
      split at split
      · split at split
        · next sign =>
          rw [split]
          rcases (Bool.or_eq_true _ _).mp sign with plus | minus
          · rw [beq_iff_eq.mp plus]
            exact .digits letter (.inr (.inl rfl)) digits
          · rw [beq_iff_eq.mp minus]
            exact .digits letter (.inr (.inr rfl)) digits
        · rw [split]
          exact .digits letter (.inl rfl) digits
      · exact absurd split.symm digits.nonempty
    · exact nomatch h
  · exact .absent

theorem exponent?_exponent {t : Bytes} (h : Exponent t) : exponent? t = some [] := by
  cases h with
  | absent => rfl
  | @digits letter sign ds letters signs digits =>
    have unsigned : dropSign (sign ++ ds) = ds := by
      rcases signs with rfl | rfl | rfl
      · match ds, digits with
        | [], digits => exact absurd rfl digits.nonempty
        | d :: ds, digits =>
          have noSign : d ≠ byte '+' ∧ d ≠ byte '-' := by
            constructor <;> rintro rfl <;> exact absurd digits.head (by decide)
          simp [dropSign, noSign]
      · rfl
      · rfl
    have read : digits? ds = some [] :=
      digits?_eq_some_iff.mpr ⟨ds, (List.append_nil ds).symm, digits, endsDigits_nil⟩
    rcases letters with rfl | rfl <;> simp [exponent?, unsigned, read]

theorem dropMinus_whole {whole : Bytes} (h : Whole whole) (rest : Bytes) :
    dropMinus (whole ++ rest) = whole ++ rest := by
  cases h with
  | zero => rfl
  | @digits first more nonzero digits =>
    have noMinus : first ≠ byte '-' := by
      rintro rfl
      exact absurd digits.head (by decide)
    simp [dropMinus, noMinus]

/-- The check accepts the number grammar and nothing else. -/
theorem isLexeme_iff {t : Bytes} : isLexeme t = true ↔ Spelled t := by
  constructor
  · intro h
    obtain ⟨u, hu, exponent⟩ := Option.bind_eq_some_iff.mp (beq_iff_eq.mp h)
    obtain ⟨v, integer, fraction⟩ := Option.bind_eq_some_iff.mp hu
    obtain ⟨whole, split, isWhole⟩ := whole_of_integer? integer
    obtain ⟨part, rfl, isFraction⟩ := fraction_of_fraction? fraction
    have isExponent := exponent_of_exponent? exponent
    unfold dropMinus at split
    split at split
    · split at split
      · next minus =>
        rw [split, beq_iff_eq.mp minus]
        exact .mk (.inr rfl) isWhole isFraction isExponent
      · rw [split]
        exact .mk (.inl rfl) isWhole isFraction isExponent
    · rw [split]
      exact .mk (.inl rfl) isWhole isFraction isExponent
  · rintro ⟨minus, isWhole, isFraction, isExponent⟩
    unfold isLexeme
    have unsigned : ∀ {minus rest : Bytes}, minus = [] ∨ minus = [byte '-'] →
        ∀ {whole}, Whole whole →
        dropMinus (minus ++ (whole ++ rest)) = whole ++ rest := by
      rintro _ rest (rfl | rfl) whole isWhole
      · exact dropMinus_whole isWhole rest
      · rfl
    rw [unsigned minus isWhole,
      integer?_whole isWhole (isFraction.endsDigits isExponent.endsDigits), Option.bind_some,
      fraction?_fraction isFraction isExponent, Option.bind_some, exponent?_exponent isExponent]
    rfl

end Number

/-! ## Strings -/

namespace Quoted

/-- The bytes of a code point: one to four, by its size. Surrogates are not told apart. -/
inductive Encodes : Nat → Bytes → Prop
  | one {a : Nat} : a < 0x80 → Encodes a [a.toUInt8]
  | two {a b : Nat} : a < 0x20 → b < 0x40 → 0x80 ≤ a * 0x40 + b →
      Encodes (a * 0x40 + b) [(0xC0 + a).toUInt8, (0x80 + b).toUInt8]
  | three {a b c : Nat} : a < 0x10 → b < 0x40 → c < 0x40 → 0x800 ≤ (a * 0x40 + b) * 0x40 + c →
      Encodes ((a * 0x40 + b) * 0x40 + c)
        [(0xE0 + a).toUInt8, (0x80 + b).toUInt8, (0x80 + c).toUInt8]
  | four {a b c d : Nat} : a < 0x08 → b < 0x40 → c < 0x40 → d < 0x40 →
      0x10000 ≤ ((a * 0x40 + b) * 0x40 + c) * 0x40 + d →
      Encodes (((a * 0x40 + b) * 0x40 + c) * 0x40 + d)
        [(0xF0 + a).toUInt8, (0x80 + b).toUInt8, (0x80 + c).toUInt8, (0x80 + d).toUInt8]

theorem utf8_of_encodes {code : Nat} {t : Bytes} (h : Encodes code t) : utf8 code = t := by
  cases h with
  | one ha => simp [utf8, ha]
  | @two a b ha hb least =>
    have first : (a * 0x40 + b) / 0x40 = a := by omega
    have second : (a * 0x40 + b) % 0x40 = b := by omega
    rw [utf8, if_neg (by omega), if_pos (by omega), first, second]
  | @three a b c ha hb hc least =>
    have first : ((a * 0x40 + b) * 0x40 + c) / 0x1000 = a := by omega
    have second : ((a * 0x40 + b) * 0x40 + c) / 0x40 % 0x40 = b := by omega
    have third : ((a * 0x40 + b) * 0x40 + c) % 0x40 = c := by omega
    rw [utf8, if_neg (by omega), if_neg (by omega), if_pos (by omega), first, second, third]
  | @four a b c d ha hb hc hd least =>
    have first : (((a * 0x40 + b) * 0x40 + c) * 0x40 + d) / 0x40000 = a := by omega
    have second : (((a * 0x40 + b) * 0x40 + c) * 0x40 + d) / 0x1000 % 0x40 = b := by omega
    have third : (((a * 0x40 + b) * 0x40 + c) * 0x40 + d) / 0x40 % 0x40 = c := by omega
    have fourth : (((a * 0x40 + b) * 0x40 + c) * 0x40 + d) % 0x40 = d := by omega
    rw [utf8, if_neg (by omega), if_neg (by omega), if_neg (by omega), first, second, third, fourth]

theorem encodes_utf8 {code : Nat} (bound : code < 0x200000) : Encodes code (utf8 code) := by
  by_cases one : code < 0x80
  · rw [utf8, if_pos one]
    exact .one one
  by_cases two : code < 0x800
  · have parts : code / 0x40 * 0x40 + code % 0x40 = code := by omega
    have h := Encodes.two (a := code / 0x40) (b := code % 0x40) (by omega) (by omega) (by omega)
    rwa [← utf8_of_encodes h, parts] at h
  by_cases three : code < 0x10000
  · have parts : (code / 0x1000 * 0x40 + code / 0x40 % 0x40) * 0x40 + code % 0x40 = code := by omega
    have h := Encodes.three (a := code / 0x1000) (b := code / 0x40 % 0x40) (c := code % 0x40)
      (by omega) (by omega) (by omega) (by omega)
    rwa [← utf8_of_encodes h, parts] at h
  · have parts : ((code / 0x40000 * 0x40 + code / 0x1000 % 0x40) * 0x40 + code / 0x40 % 0x40) * 0x40
        + code % 0x40 = code := by omega
    have h := Encodes.four (a := code / 0x40000) (b := code / 0x1000 % 0x40)
      (c := code / 0x40 % 0x40) (d := code % 0x40)
      (by omega) (by omega) (by omega) (by omega) (by omega)
    rwa [← utf8_of_encodes h, parts] at h

/-- A hexadecimal digit of either case, and its value. -/
def HexDigit (b : UInt8) (v : Nat) : Prop :=
  (bytes "0123456789abcdef")[v]? = some b ∨ (bytes "0123456789ABCDEF")[v]? = some b

instance (b : UInt8) (v : Nat) : Decidable (HexDigit b v) :=
  inferInstanceAs (Decidable (_ ∨ _))

theorem HexDigit.lt {b : UInt8} {v : Nat} (h : HexDigit b v) : v < 16 := by
  rcases h with lower | upper
  · exact (List.getElem?_eq_some_iff.mp lower).1
  · exact (List.getElem?_eq_some_iff.mp upper).1

theorem hexDigit_of_value : ∀ b : UInt8,
    ((Byte.hexValue? b).all fun v => decide (HexDigit b v)) = true :=
  Byte.of_all (by decide +kernel)

theorem value_of_hexDigit : ((List.range 16).all fun v =>
    ((bytes "0123456789abcdef")[v]?.all fun b => Byte.hexValue? b == some v) &&
      (bytes "0123456789ABCDEF")[v]?.all fun b => Byte.hexValue? b == some v) = true := by
  decide +kernel

theorem hexValue?_eq_some_iff {b : UInt8} {v : Nat} :
    Byte.hexValue? b = some v ↔ HexDigit b v := by
  constructor
  · intro h
    simpa [h] using hexDigit_of_value b
  · intro h
    have shown := List.all_eq_true.mp value_of_hexDigit v (List.mem_range.mpr h.lt)
    obtain ⟨ofLower, ofUpper⟩ := Bool.and_eq_true_iff.mp shown
    rcases h with lower | upper
    · simpa [lower] using ofLower
    · simpa [upper] using ofUpper

/-- The escape `\uXXXX` and the code unit that it names. -/
inductive UnitEscape : Bytes → Nat → Prop
  | mk {d₃ d₂ d₁ d₀ : UInt8} {a b c d : Nat} :
      HexDigit d₃ a → HexDigit d₂ b → HexDigit d₁ c → HexDigit d₀ d →
      UnitEscape [byte '\\', byte 'u', d₃, d₂, d₁, d₀] (((a * 16 + b) * 16 + c) * 16 + d)

theorem hex4?_eq_some_iff {d₃ d₂ d₁ d₀ : UInt8} {code : Nat} :
    hex4? d₃ d₂ d₁ d₀ = some code ↔ UnitEscape [byte '\\', byte 'u', d₃, d₂, d₁, d₀] code := by
  constructor
  · intro h
    unfold hex4? at h
    split at h
    · next a b c d ha hb hc hd =>
      cases h
      exact .mk (hexValue?_eq_some_iff.mp ha) (hexValue?_eq_some_iff.mp hb)
        (hexValue?_eq_some_iff.mp hc) (hexValue?_eq_some_iff.mp hd)
    · exact nomatch h
  · rintro ⟨ha, hb, hc, hd⟩
    simp only [hex4?, hexValue?_eq_some_iff.mpr ha, hexValue?_eq_some_iff.mpr hb,
      hexValue?_eq_some_iff.mpr hc, hexValue?_eq_some_iff.mpr hd]

theorem UnitEscape.lt {t : Bytes} {code : Nat} (h : UnitEscape t code) : code < 0x10000 := by
  cases h with
  | mk ha hb hc hd =>
    have := ha.lt
    have := hb.lt
    have := hc.lt
    have := hd.lt
    omega

/-- The letters that may stand after a backslash, and the bytes that they stand for. -/
inductive LetterEscape : UInt8 → UInt8 → Prop
  | quote : LetterEscape (byte '"') (byte '"')
  | backslash : LetterEscape (byte '\\') (byte '\\')
  | slash : LetterEscape (byte '/') (byte '/')
  | backspace : LetterEscape (byte 'b') 0x08
  | formFeed : LetterEscape (byte 'f') 0x0C
  | lineFeed : LetterEscape (byte 'n') 0x0A
  | carriageReturn : LetterEscape (byte 'r') 0x0D
  | tab : LetterEscape (byte 't') 0x09

end Quoted

namespace Json

open Quoted

theorem escaped?_eq_some_iff {letter c : UInt8} :
    escaped? letter = some c ↔ LetterEscape letter c := by
  constructor
  · intro h
    simp only [escaped?, Bool.or_eq_true, beq_iff_eq] at h
    split_ifs at h with itself b f n r t
    · cases h
      rcases itself with (rfl | rfl) | rfl
      · exact .quote
      · exact .backslash
      · exact .slash
    · cases b; cases h; exact .backspace
    · cases f; cases h; exact .formFeed
    · cases n; cases h; exact .lineFeed
    · cases r; cases h; exact .carriageReturn
    · cases t; cases h; exact .tab
  · intro h
    cases h <;> rfl

/-- A text goes on with the low surrogate that a high one needs to be half of a pair. -/
def OpensPair (code : Nat) (t : Bytes) : Prop :=
  (0xD800 ≤ code ∧ code < 0xDC00) ∧
    ∃ escape low rest, t = escape ++ rest ∧ UnitEscape escape low ∧ 0xDC00 ≤ low ∧ low < 0xE000

/-- What may stand between the quotes of a string, and the bytes that it means. Two escapes that
name a surrogate pair mean one code point, and every other unit is encoded alone. -/
inductive Content : Bytes → Bytes → Prop
  | nil : Content [] []
  | plain {b : UInt8} {t v : Bytes} :
      b ≠ byte '"' → b ≠ byte '\\' → Content t v → Content (b :: t) (b :: v)
  | letter {letter c : UInt8} {t v : Bytes} :
      LetterEscape letter c → Content t v → Content (byte '\\' :: letter :: t) (c :: v)
  | pair {high low : Nat} {escape escape' code t v : Bytes} :
      high < 0x400 → low < 0x400 →
      UnitEscape escape (0xD800 + high) → UnitEscape escape' (0xDC00 + low) →
      Encodes (0x10000 + high * 0x400 + low) code → Content t v →
      Content (escape ++ (escape' ++ t)) (code ++ v)
  | unit {unit : Nat} {escape code t v : Bytes} :
      UnitEscape escape unit → ¬ OpensPair unit t → Encodes unit code → Content t v →
      Content (escape ++ t) (code ++ v)

/-- A string with its quotes, and the bytes that it means. -/
inductive Literal : Bytes → Bytes → Prop
  | mk {t v : Bytes} : Content t v → Literal (byte '"' :: (t ++ [byte '"'])) v

/-! The reader cuts a string into pieces first and pairs the surrogates afterwards. -/

/-- The pieces that the text between two quotes is cut into. -/
inductive Pieces : Bytes → List Piece → Prop
  | nil : Pieces [] []
  | plain {b : UInt8} {t : Bytes} {ps : List Piece} :
      b ≠ byte '"' → b ≠ byte '\\' → Pieces t ps → Pieces (b :: t) (.byte b :: ps)
  | letter {letter c : UInt8} {t : Bytes} {ps : List Piece} :
      LetterEscape letter c → Pieces t ps → Pieces (byte '\\' :: letter :: t) (.byte c :: ps)
  | unit {unit : Nat} {escape t : Bytes} {ps : List Piece} :
      UnitEscape escape unit → Pieces t ps → Pieces (escape ++ t) (.unit unit :: ps)

theorem ok_of_before {p : Piece} {more : Step (List Piece × Bytes)} {ps : List Piece}
    {rest : Bytes} (h : p.before more = .ok (ps, rest)) :
    ∃ later, more = .ok (later, rest) ∧ ps = p :: later := by
  obtain ⟨⟨later, left⟩, read, equal⟩ := ok_of_map h
  cases equal
  exact ⟨later, read, rfl⟩

theorem pieces_of_read {t rest : Bytes} {ps : List Piece} (h : pieces t = .ok (ps, rest)) :
    ∃ inner, t = inner ++ byte '"' :: rest ∧ Pieces inner ps := by
  fun_induction pieces t generalizing ps with
  | case1 => exact nomatch h
  | case2 b after quote =>
    cases h
    exact ⟨[], by rw [beq_iff_eq.mp quote]; rfl, .nil⟩
  | case3 => exact nomatch h
  | case4 b _ backslash letter isUnit d₃ d₂ d₁ d₀ after code named ih =>
    obtain ⟨later, read, rfl⟩ := ok_of_before h
    obtain ⟨inner, rfl, cut⟩ := ih read
    rw [beq_iff_eq.mp backslash, beq_iff_eq.mp isUnit]
    exact ⟨_ :: _ :: d₃ :: d₂ :: d₁ :: d₀ :: inner, rfl, .unit (hex4?_eq_some_iff.mp named) cut⟩
  | case5 => exact nomatch h
  | case6 => exact nomatch h
  | case7 b _ backslash letter after _ c escaped ih =>
    obtain ⟨later, read, rfl⟩ := ok_of_before h
    obtain ⟨inner, rfl, cut⟩ := ih read
    rw [beq_iff_eq.mp backslash]
    exact ⟨_ :: letter :: inner, rfl, .letter (escaped?_eq_some_iff.mp escaped) cut⟩
  | case8 => exact nomatch h
  | case9 b after quote backslash ih =>
    obtain ⟨later, read, rfl⟩ := ok_of_before h
    obtain ⟨inner, rfl, cut⟩ := ih read
    exact ⟨b :: inner, rfl, .plain (by simpa using quote) (by simpa using backslash) cut⟩

theorem read_of_pieces {inner : Bytes} {ps : List Piece} (h : Pieces inner ps) (rest : Bytes) :
    pieces (inner ++ byte '"' :: rest) = .ok (ps, rest) := by
  induction h with
  | nil => exact pieces_quote rest
  | plain quote backslash _ ih =>
    rw [List.cons_append, pieces_plain quote backslash, ih]
    rfl
  | letter escape _ ih =>
    rw [List.cons_append, List.cons_append, pieces_letter (escaped?_eq_some_iff.mpr escape), ih]
    rfl
  | unit escape _ ih =>
    cases escape with
    | mk ha hb hc hd =>
      have named := hex4?_eq_some_iff.mpr (.mk ha hb hc hd)
      simp only [List.cons_append, List.nil_append]
      rw [pieces_unit named, ih]
      rfl

/-! Pairing the surrogates of the pieces gives the content of the string. -/

theorem Pieces.unit_inv {t : Bytes} {unit : Nat} {ps : List Piece}
    (h : Pieces t (.unit unit :: ps)) :
    ∃ escape rest, t = escape ++ rest ∧ UnitEscape escape unit ∧ Pieces rest ps := by
  cases h with
  | unit escape rest => exact ⟨_, _, rfl, escape, rest⟩

theorem isHighSurrogate_iff {unit : Nat} :
    isHighSurrogate unit = true ↔ 0xD800 ≤ unit ∧ unit < 0xDC00 := by
  simp only [isHighSurrogate, Bool.and_eq_true, decide_eq_true_eq]
  omega

theorem isLowSurrogate_iff {unit : Nat} :
    isLowSurrogate unit = true ↔ 0xDC00 ≤ unit ∧ unit < 0xE000 := by
  simp only [isLowSurrogate, Bool.and_eq_true, decide_eq_true_eq]
  omega

/-- A piece that goes on as no pair is encoded alone. -/
theorem assemble_unit {unit : Nat} {t : Bytes} {ps : List Piece} (h : Pieces t ps)
    (alone : ¬ OpensPair unit t) : assemble (.unit unit :: ps) = utf8 unit ++ assemble ps := by
  match ps, h with
  | [], _ => rfl
  | .byte _ :: _, _ => rfl
  | .unit low :: _, h =>
    obtain ⟨escape, rest, rfl, named, -⟩ := h.unit_inv
    have single : (isHighSurrogate unit && isLowSurrogate low) = false := by
      refine Bool.eq_false_iff.mpr fun both => ?_
      obtain ⟨isHigh, isLow⟩ := (Bool.and_eq_true _ _).mp both
      exact alone ⟨isHighSurrogate_iff.mp isHigh, escape, low, rest, rfl, named,
        isLowSurrogate_iff.mp isLow⟩
    rw [assemble, single]
    rfl

/-- Where an escape of a unit comes next, the unit is the next piece. -/
theorem Pieces.next_unit {escape rest : Bytes} {unit : Nat} {ps : List Piece}
    (h : Pieces (escape ++ rest) ps) (named : UnitEscape escape unit) :
    ∃ more, ps = .unit unit :: more := by
  cases named with
  | mk ha hb hc hd =>
    have found := hex4?_eq_some_iff.mpr (.mk ha hb hc hd)
    generalize whole : _ ++ rest = t at h
    cases h with
    | nil => exact nomatch whole
    | plain _ backslash => exact absurd (List.cons.inj whole).1.symm backslash
    | letter escape =>
      cases (List.cons.inj (List.cons.inj whole).2).1
      exact nomatch escape
    | unit escape =>
      cases escape with
      | mk ha' hb' hc' hd' =>
        have found' := hex4?_eq_some_iff.mpr (.mk ha' hb' hc' hd')
        simp only [List.cons_append, List.cons.injEq] at whole
        obtain ⟨-, -, rfl, rfl, rfl, rfl, -⟩ := whole
        have same := Option.some.inj (found.symm.trans found')
        exact ⟨_, by rw [same]⟩

theorem content_of_pieces {t : Bytes} {ps : List Piece} (h : Pieces t ps) :
    Content t (assemble ps) := by
  fun_induction assemble ps generalizing t with
  | case1 =>
    cases h
    exact .nil
  | case2 b ps ih =>
    cases h with
    | plain quote backslash rest => exact .plain quote backslash (ih rest)
    | letter escape rest => exact .letter escape (ih rest)
  | case3 high low ps both ih =>
    obtain ⟨escape, t', rfl, named, next⟩ := h.unit_inv
    obtain ⟨escape', rest, rfl, named', after⟩ := next.unit_inv
    obtain ⟨isHigh, isLow⟩ := (Bool.and_eq_true _ _).mp both
    obtain ⟨high, rfl⟩ := Nat.exists_eq_add_of_le (isHighSurrogate_iff.mp isHigh).1
    obtain ⟨low, rfl⟩ := Nat.exists_eq_add_of_le (isLowSurrogate_iff.mp isLow).1
    have small := (isHighSurrogate_iff.mp isHigh).2
    have small' := (isLowSurrogate_iff.mp isLow).2
    have point : pairCode (0xD800 + high) (0xDC00 + low) = 0x10000 + high * 0x400 + low := by
      unfold pairCode
      omega
    rw [point]
    exact .pair (by omega) (by omega) named named' (encodes_utf8 (by omega)) (ih after)
  | case4 high low ps neither ih =>
    obtain ⟨escape, t', rfl, named, after⟩ := h.unit_inv
    refine .unit named ?_ (encodes_utf8 (Nat.lt_trans named.lt (by decide))) (ih after)
    rintro ⟨isHigh, escape', low', rest, rfl, named', isLow⟩
    obtain ⟨more, equal⟩ := after.next_unit named'
    cases equal
    exact neither (by rw [isHighSurrogate_iff.mpr isHigh, isLowSurrogate_iff.mpr isLow]; rfl)
  | case5 unit ps noUnit ih =>
    obtain ⟨escape, t', rfl, named, after⟩ := h.unit_inv
    refine .unit named ?_ (encodes_utf8 (Nat.lt_trans named.lt (by decide))) (ih after)
    rintro ⟨-, escape', low, rest, rfl, named', -⟩
    obtain ⟨more, rfl⟩ := after.next_unit named'
    exact noUnit low more rfl

theorem pieces_of_content {t v : Bytes} (h : Content t v) :
    ∃ ps, Pieces t ps ∧ assemble ps = v := by
  induction h with
  | nil => exact ⟨[], .nil, rfl⟩
  | plain quote backslash _ ih =>
    obtain ⟨ps, cut, rfl⟩ := ih
    exact ⟨_, .plain quote backslash cut, rfl⟩
  | letter escape _ ih =>
    obtain ⟨ps, cut, rfl⟩ := ih
    exact ⟨_, .letter escape cut, rfl⟩
  | @pair high low _ _ code _ _ hh hl escape escape' encodes _ ih =>
    obtain ⟨ps, cut, rfl⟩ := ih
    refine ⟨_, .unit escape (.unit escape' cut), ?_⟩
    have pair : (isHighSurrogate (0xD800 + high) && isLowSurrogate (0xDC00 + low)) = true := by
      rw [Bool.and_eq_true, isHighSurrogate_iff, isLowSurrogate_iff]
      omega
    have point : pairCode (0xD800 + high) (0xDC00 + low) = 0x10000 + high * 0x400 + low := by
      unfold pairCode
      omega
    rw [assemble, pair, if_pos rfl, point, utf8_of_encodes encodes]
  | unit escape alone encodes _ ih =>
    obtain ⟨ps, cut, rfl⟩ := ih
    exact ⟨_, .unit escape cut, by rw [assemble_unit cut alone, utf8_of_encodes encodes]⟩

/-- What is read up to a closing quote is the content of a string, and is what it means. -/
theorem pieces_assemble_iff {t v rest : Bytes} :
    (∃ ps, pieces t = .ok (ps, rest) ∧ assemble ps = v) ↔
      ∃ inner, t = inner ++ byte '"' :: rest ∧ Content inner v := by
  constructor
  · rintro ⟨ps, read, rfl⟩
    obtain ⟨inner, rfl, cut⟩ := pieces_of_read read
    exact ⟨inner, rfl, content_of_pieces cut⟩
  · rintro ⟨inner, rfl, content⟩
    obtain ⟨ps, cut, rfl⟩ := pieces_of_content content
    exact ⟨ps, read_of_pieces cut rest, rfl⟩

end Json

/-! ## Values -/

namespace Json

/-- Optional blanks: spaces, tabs, line feeds, vertical tabs, form feeds and carriage returns. -/
def Blanks (t : Bytes) : Prop :=
  ∀ b, b ∈ t → b ∈ [byte ' ', byte '\t', byte '\n', 0x0B, 0x0C, byte '\r']

mutual
/-- A value without blanks around it, and the tree that it means. -/
inductive Value : Bytes → Node → Prop
  | null : Value (bytes "null") .null
  | trueWord : Value (bytes "true") (.bool true)
  | falseWord : Value (bytes "false") (.bool false)
  | number {t : Bytes} : Number.Spelled t → Value t (.num t)
  | string {t v : Bytes} : Literal t v → Value t (.str v)
  | emptyArray {blanks : Bytes} :
      Blanks blanks → Value (byte '[' :: (blanks ++ [byte ']'])) (.arr [])
  | array {t : Bytes} {items : List Node} :
      Items t items → Value (byte '[' :: (t ++ [byte ']'])) (.arr items)
  | emptyObject {blanks : Bytes} :
      Blanks blanks → Value (byte '\x7b' :: (blanks ++ [byte '\x7d'])) (.obj [])
  | object {t : Bytes} {entries : List (Bytes × Node)} :
      Entries t entries → (entries.map Prod.fst).Nodup →
      Value (byte '\x7b' :: (t ++ [byte '\x7d'])) (.obj entries)

/-- A value with the blanks around it. -/
inductive Element : Bytes → Node → Prop
  | mk {front t back : Bytes} {n : Node} :
      Blanks front → Value t n → Blanks back → Element (front ++ (t ++ back)) n

/-- One or more elements with a comma between each two. -/
inductive Items : Bytes → List Node → Prop
  | last {t : Bytes} {n : Node} : Element t n → Items t [n]
  | more {t rest : Bytes} {n : Node} {items : List Node} :
      Element t n → Items rest items → Items (t ++ byte ',' :: rest) (n :: items)

/-- A key, a colon and an element. -/
inductive Entry : Bytes → Bytes → Node → Prop
  | mk {front name back t key : Bytes} {n : Node} :
      Blanks front → Literal name key → Blanks back → Element t n →
      Entry (front ++ (name ++ (back ++ byte ':' :: t))) key n

/-- One or more entries with a comma between each two. -/
inductive Entries : Bytes → List (Bytes × Node) → Prop
  | last {t key : Bytes} {n : Node} : Entry t key n → Entries t [(key, n)]
  | more {t rest key : Bytes} {n : Node} {entries : List (Bytes × Node)} :
      Entry t key n → Entries rest entries → Entries (t ++ byte ',' :: rest) ((key, n) :: entries)
end

end Json

end HeaderForge
