import HeaderForge.Header.Declarations
import HeaderForge.Header.Fields
import HeaderForge.Proofs.Build.WellFormed
import HeaderForge.Proofs.Header.Comments
import HeaderForge.Proofs.Naming.Literals
import Mathlib.Data.List.Basic
/-!
# The literals in headers

Keys, tags and the values of enumerations are arbitrary text, and the code around them is made of
fixed pieces and names. Reading the code gives back these texts and no others, each as often as it
is written and in order: no text leaves its literal, and none is taken for another one.

1. `Code.Literals` says which literals stand in code. `Code.Literals.append` puts code together, and
   `Code.Literals.between` puts a literal into it.
2. `Spelled` says that names can stand in code. Those of a well-formed class do.
3. `Header.literals_jsonKeys`, `Header.literals_enumeration` and `Header.literals_taggedUnion` are
   the pieces of code with literals.
4. `Header.texts_read_back` is the result.
-/

namespace HeaderForge

namespace Code

/-! ## Code among other code -/

/-- Code without literals. -/
def Plain (t : Bytes) : Prop := quote ∉ t

/-- A place outside of literals, and not right after one. -/
def Place.IsOpen (p : Place) : Prop := p = .free ∨ p = .word

/-- Code that starts and ends outside of literals, and the texts of its literals. -/
def Literals (code : Bytes) (texts : List Bytes) : Prop :=
  ∀ p : Place, p.IsOpen → ∃ q : Place, q.IsOpen ∧ read p code = some (texts, q)

/-- The texts of the literals in code that starts outside of them. -/
def texts (code : Bytes) : List Bytes := ((read .free code).map Prod.fst).getD []

/-- Code that starts and ends outside of literals. -/
def SelfContained (code : Bytes) : Prop := Literals code (texts code)

/-- Code after which a literal can begin. -/
def Opens (front : Bytes) : Prop :=
  read .free front = some ([], .free) ∧ read .word front = some ([], .free)

/-- Code that can follow a literal. -/
def Closes (back : Bytes) : Prop := read .closed back = some ([], .free)

/-- Code that ends with the quote of a literal. -/
def OpensInto (front : Bytes) : Prop := front.getLast? = some quote ∧ Opens front.dropLast

/-- Code that starts with the other quote. -/
def ClosesFrom (back : Bytes) : Prop := back.head? = some quote ∧ Closes back.tail

instance : DecidablePred Plain := fun t => inferInstanceAs (Decidable (quote ∉ t))

instance : DecidablePred Opens := fun front =>
  inferInstanceAs (Decidable (read .free front = some ([], .free) ∧
    read .word front = some ([], .free)))

instance : DecidablePred Closes := fun back =>
  inferInstanceAs (Decidable (read .closed back = some ([], .free)))

instance : DecidablePred OpensInto := fun front =>
  inferInstanceAs (Decidable (front.getLast? = some quote ∧ Opens front.dropLast))

instance : DecidablePred ClosesFrom := fun back =>
  inferInstanceAs (Decidable (back.head? = some quote ∧ Closes back.tail))

theorem bytes_ofList (cs : List Char) : bytes (String.ofList cs) = cs.map byte := by
  rw [bytes, String.toList_ofList]
  rfl

/-- What is decided of fixed code. Its characters are known, and need not be decoded for it. -/
theorem fixed {p : Bytes → Prop} [DecidablePred p] {cs : List Char}
    (h : decide (p (cs.map byte)) = true) : p (bytes (String.ofList cs)) :=
  bytes_ofList cs ▸ of_decide_eq_true h

variable {code more front back : Bytes} {found others : List Bytes}

theorem Literals.append (first : Literals code found) (second : Literals more others) :
    Literals (code ++ more) (found ++ others) := by
  intro p here
  obtain ⟨q, between, read_first⟩ := first p here
  obtain ⟨r, there, read_second⟩ := second q between
  exact ⟨r, there, by simp [read_append, read_first, read_second]⟩

theorem literals_plain (h : Plain code) : Literals code [] := by
  induction code with
  | nil => exact fun p here => ⟨p, here, by cases p <;> rfl⟩
  | cons b rest ih =>
    intro p here
    obtain ⟨other, later⟩ := not_or.mp (mt List.mem_cons.mpr h)
    have same : (b == quote) = false := beq_eq_false_iff_ne.mpr fun h => other h.symm
    have next : (outside b).IsOpen := by
      unfold outside
      split
      · exact Or.inr rfl
      · exact Or.inl rfl
    obtain ⟨q, there, read_rest⟩ := ih later _ next
    refine ⟨q, there, ?_⟩
    rcases here with rfl | rfl <;> simp [read, same, read_rest]

theorem Literals.texts_eq (h : Literals code found) : texts code = found := by
  obtain ⟨q, -, here⟩ := h .free (Or.inl rfl)
  simp [texts, here]

theorem Literals.selfContained (h : Literals code found) : SelfContained code := by
  rw [SelfContained, h.texts_eq]
  exact h

/-- A literal between fixed pieces of code. -/
theorem Literals.between (opens : Opens front) (closes : Closes back) (t : Bytes) :
    Literals (front ++ Naming.literal t ++ back) [t] := by
  intro p here
  have opened : read p front = some ([], .free) := by
    rcases here with rfl | rfl
    · exact opens.1
    · exact opens.2
  refine ⟨.free, Or.inl rfl, ?_⟩
  rw [Closes] at closes
  simp [read_append, opened, read_literal, closes]

/-! ## Rows and lines -/

theorem Plain.nil : Plain [] := List.not_mem_nil

theorem Plain.append (first : Plain code) (second : Plain more) : Plain (code ++ more) :=
  fun member => (List.mem_append.mp member).elim first second

theorem Plain.part {part : Bytes} {parts : List Bytes} (first : Plain part)
    (rest : Plain (row parts)) : Plain (row (part :: parts)) :=
  first.append rest

theorem Plain.join {α : Type} {separator : Bytes} (apart : Plain separator) {xs : List α}
    {code : α → Bytes} (h : ∀ x, x ∈ xs → Plain (code x)) :
    Plain (Bytes.join separator (xs.map code)) := by
  intro member
  rcases Bytes.mem_of_mem_join member with between | ⟨part, there, inside⟩
  · exact apart between
  · obtain ⟨x, present, rfl⟩ := List.mem_map.mp there
    exact h x present inside

theorem Literals.nil : Literals [] [] := literals_plain .nil

/-- A part of a row without literals, before the others. -/
theorem Literals.part {part : Bytes} {parts : List Bytes} (first : Plain part)
    (rest : Literals (row parts) found) : Literals (row (part :: parts)) found :=
  (literals_plain first).append rest

/-- A part of a row with all its literals. -/
theorem Literals.only_part {part : Bytes} {parts : List Bytes} (first : Literals part found)
    (rest : Plain (row parts)) : Literals (row (part :: parts)) found := by
  simpa [row] using first.append (literals_plain rest)

/-- The parts of a row around a literal. -/
theorem literals_row (opens : Opens front) (closes : Closes back) (t : Bytes) :
    Literals (row [front, Naming.literal t, back]) [t] := by
  simpa [row] using Literals.between opens closes t

theorem Literals.join {α : Type} {separator : Bytes} (apart : Plain separator) {xs : List α}
    {code : α → Bytes} {found : α → List Bytes} (h : ∀ x, x ∈ xs → Literals (code x) (found x)) :
    Literals (Bytes.join separator (xs.map code)) (xs.flatMap found) := by
  induction xs with
  | nil => exact .nil
  | cons x xs ih =>
    obtain ⟨first, later⟩ := List.forall_mem_cons.mp h
    cases xs with
    | nil => simpa [Bytes.join] using first
    | cons y xs =>
      have between := (first.append (literals_plain apart)).append (ih later)
      rwa [List.append_nil] at between

section Lines

variable {lines later : List Bytes}

theorem Literals.line_cons (first : Literals code found)
    (rest : Literals (Bytes.unlines lines) others) :
    Literals (Bytes.unlines (code :: lines)) (found ++ others) := by
  have feed : Literals [byte '\n'] [] := literals_plain (by decide)
  rw [unlines_cons, ← List.append_nil found]
  exact (first.append feed).append rest

/-- A line without literals, before the others. -/
theorem Literals.line (first : Plain code) (rest : Literals (Bytes.unlines lines) found) :
    Literals (Bytes.unlines (code :: lines)) found :=
  (literals_plain first).line_cons rest

/-- A line with all literals. -/
theorem Literals.only_line (first : Literals code found)
    (rest : Literals (Bytes.unlines lines) []) :
    Literals (Bytes.unlines (code :: lines)) found := by
  simpa using first.line_cons rest

theorem Literals.lines_append (first : Literals (Bytes.unlines lines) found)
    (second : Literals (Bytes.unlines later) others) :
    Literals (Bytes.unlines (lines ++ later)) (found ++ others) := by
  rw [Bytes.unlines, List.flatMap_append]
  exact first.append second

theorem Literals.after_none (first : Literals (Bytes.unlines lines) [])
    (second : Literals (Bytes.unlines later) found) :
    Literals (Bytes.unlines (lines ++ later)) found :=
  first.lines_append second

theorem Literals.then_none (first : Literals (Bytes.unlines lines) found)
    (second : Literals (Bytes.unlines later) []) :
    Literals (Bytes.unlines (lines ++ later)) found := by
  simpa using first.lines_append second

end Lines

section Each

variable {α : Type} {xs : List α}

theorem Literals.lines_flatMap {lines found : α → List Bytes}
    (h : ∀ x, x ∈ xs → Literals (Bytes.unlines (lines x)) (found x)) :
    Literals (Bytes.unlines (xs.flatMap lines)) (xs.flatMap found) := by
  induction xs with
  | nil => exact .nil
  | cons x xs ih =>
    obtain ⟨first, later⟩ := List.forall_mem_cons.mp h
    exact first.lines_append (ih later)

theorem Literals.lines_map {line : α → Bytes} {found : α → List Bytes}
    (h : ∀ x, x ∈ xs → Literals (line x) (found x)) :
    Literals (Bytes.unlines (xs.map line)) (xs.flatMap found) := by
  rw [List.map_eq_flatMap]
  exact .lines_flatMap fun x member => (h x member).only_line .nil

theorem Literals.lines_map_plain {line : α → Bytes} (h : ∀ x, x ∈ xs → Plain (line x)) :
    Literals (Bytes.unlines (xs.map line)) [] := by
  induction xs with
  | nil => exact .nil
  | cons x xs ih =>
    obtain ⟨first, later⟩ := List.forall_mem_cons.mp h
    exact .line first (ih later)

end Each

/-! ## Names in code -/

/-- A text that needs no escapes. -/
def Verbatim (t : Bytes) : Prop := ∀ b, b ∈ t → Naming.literalByte b = [b]

instance : DecidablePred Verbatim := List.decidableBAll fun b => Naming.literalByte b = [b]

theorem Verbatim.plain {t : Bytes} (h : Verbatim t) : Plain t :=
  fun member => absurd (h quote member) (by decide)

/-- Such a text may also stand between the quotes as it is. -/
theorem Verbatim.literal_eq {t : Bytes} (h : Verbatim t) :
    Naming.literal t = quote :: (t ++ [quote]) := by
  have same : Naming.literalText t = t := (List.flatMap_congr h).trans (List.flatMap_singleton' t)
  rw [Naming.literal, same]
  rfl

/-- The parts of a row around such a text, the quotes among them. -/
theorem literals_row_quoted {t : Bytes} (h : Verbatim t) (opens : OpensInto front)
    (closes : ClosesFrom back) : Literals (row [front, t, back]) [t] := by
  have between := Literals.between opens.2 closes.2 t
  have first : front.dropLast ++ [quote] = front := List.dropLast_append_getLast? quote opens.1
  have last : quote :: back.tail = back := List.cons_head?_tail closes.1
  have same : row [front, t, back] = front.dropLast ++ Naming.literal t ++ back.tail := by
    rw [h.literal_eq, ← first, ← last]
    simp [row]
  rwa [same]

end Code

open Code

/-- The names around the keys of a class are plain, and its own needs no escapes in a literal. -/
structure ClassModel.Spelled (c : ClassModel) : Prop where
  name : Verbatim c.name
  fields : ∀ f, f ∈ c.fields → Plain f.name

/-- The names around the values of an enumeration are plain, and the values that are no strings are
code of their own. -/
structure EnumDef.Spelled (d : EnumDef) : Prop where
  name : Plain d.name
  members : ∀ m, m ∈ d.members → Plain m.name
  values : ∀ m, m ∈ d.members → m.isString = false → SelfContained m.literal

/-- The names around the tags of a union are plain, and the tags that are no strings are code of
their own. -/
structure UnionModel.Spelled (u : UnionModel) : Prop where
  slots : ∀ v, v ∈ u.variants → Plain v.slot
  types : ∀ v, v ∈ u.variants → Plain v.type.name ∧ Plain v.type.spell
  tags : ∀ v, v ∈ u.variants → v.tagIsString = false → SelfContained v.tag

theorem Naming.IsIdentifier.verbatim {word : Bytes} (h : Naming.IsIdentifier word) :
    Verbatim word := by
  have kept : ∀ b, (!Byte.isWord b || Naming.literalByte b == [b]) = true :=
    Byte.of_all (by decide +kernel)
  intro b member
  simpa [h.isWord b member] using kept b

theorem Naming.isAlnum_of_mem_pascalWords {wordStart : Bool} {b : UInt8} {name : Bytes}
    (h : b ∈ Naming.pascalWords wordStart name) : Byte.isAlnum b = true := by
  have upper : ∀ b, (!Byte.isAlnum b || Byte.isAlnum (Byte.toUpper b)) = true :=
    Byte.of_all (by decide +kernel)
  induction name generalizing wordStart with
  | nil => exact nomatch h
  | cons first rest ih =>
    unfold Naming.pascalWords at h
    split at h
    · next alnum =>
      rcases List.mem_cons.mp h with rfl | later
      · split
        · simpa [alnum] using upper first
        · exact alnum
      · exact ih later
    · exact ih h

theorem Naming.plain_pascalCase (name : Bytes) : Plain (Naming.pascalCase name) := by
  have words : Plain (Naming.pascalWords true name) := fun member =>
    absurd (Naming.isAlnum_of_mem_pascalWords member) (by decide)
  unfold Naming.pascalCase
  dsimp only
  split
  · exact .append (fixed rfl) words
  · exact words

/-- The names of the fields of a class that is built are identifiers. -/
theorem ClassModel.WellFormed.spelled {index : Index} {settings : ModelSettings} {s : NamedSchema}
    {c : ClassModel} (h : c.WellFormed index settings s) (name : Verbatim c.name) : c.Spelled :=
  ⟨name, fun f member => (h.isIdentifier f member).verbatim.plain⟩

theorem EnumDef.Lists.spelled {d : EnumDef} {values : LiteralList} (h : d.Lists values)
    (name : Plain d.name)
    (contained : ∀ l, l ∈ values.literals → l.isString = false → SelfContained l.value) :
    d.Spelled := by
  refine ⟨name, fun m member => (h.isIdentifier m member).verbatim.plain, fun m member inert => ?_⟩
  have listed : (m.literal, m.isString) ∈ values.literals.map fun l => (l.value, l.isString) :=
    h.literals ▸ List.mem_map_of_mem member
  obtain ⟨l, there, same⟩ := List.mem_map.mp listed
  obtain ⟨value, kind⟩ := Prod.mk.inj same
  exact value ▸ contained l there (kind.trans inert)

theorem UnionModel.WellFormed.spelled {u : UnionModel} (h : u.WellFormed)
    (types : ∀ v, v ∈ u.variants → Plain v.type.name ∧ Plain v.type.spell)
    (tags : ∀ v, v ∈ u.variants → v.tagIsString = false → SelfContained v.tag) : u.Spelled :=
  ⟨fun v member => (h.isIdentifier v member).verbatim.plain, types, tags⟩

namespace Header

/-! ## Keys -/

theorem keyExpr_eq_iff {c : ClassModel} {f g : Field} :
    keyExpr c f = keyExpr c g ↔ if c.useJsonKey then f.name = g.name else f.key = g.key := by
  unfold keyExpr
  split
  · simp [row]
  · refine ⟨fun same => ?_, fun same => same ▸ rfl⟩
    have ended : Naming.literal f.key ++ [] = Naming.literal g.key ++ [] := by rw [same]
    exact (Naming.literal_append_inj.mp ended).1

/-- The constants for keys stand for the keys. -/
theorem literals_jsonKeys {c : ClassModel} (names : ∀ f, f ∈ c.fields → Plain f.name)
    {indent : Bytes} (blank : Plain indent) :
    Literals (Bytes.unlines (jsonKeys c indent))
      (if c.useJsonKey then c.fields.map Field.key else []) := by
  have keys : c.fields.map Field.key = c.fields.flatMap fun f => [f.key] := List.map_eq_flatMap
  unfold jsonKeys
  split
  · next absent =>
    have none : (if c.useJsonKey then c.fields.map Field.key else []) = [] := by
      split
      · next constants => simpa [constants] using absent
      · rfl
    rw [none]
    exact .nil
  · next some =>
    obtain ⟨constants, -⟩ : c.useJsonKey = true ∧ c.fields ≠ [] := by simpa using some
    rw [if_pos constants, keys]
    refine .then_none (.line (.part blank (.part (fixed rfl) .nil)) (.lines_map fun f member => ?_))
      (.line (.part blank (.part (fixed rfl) .nil)) .nil)
    exact .part blank <| .part (fixed rfl) <| .part (names f member) <|
      literals_row (fixed rfl) (fixed rfl) f.key

/-! ## Enumerations -/

/-- The texts of the literals in a JSON value: a number or truth value has none. -/
def jsonTexts (isString : Bool) (text : Bytes) : List Bytes :=
  if isString then [text] else texts text

/-- The parts of a row around a JSON value. -/
theorem literals_row_json {front back : Bytes} (opens : Opens front) (closes : Closes back)
    (before : Plain front) (after : Plain back) {isString : Bool} {text : Bytes}
    (h : isString = false → SelfContained text) :
    Literals (row [front, jsonLiteral isString text, back]) (jsonTexts isString text) := by
  cases isString with
  | true => exact literals_row opens closes text
  | false => exact .part before (.only_part (h rfl) (.part after .nil))

/-- The conversions of an enumeration have its strings as JSON values, and then all values as
texts. -/
theorem literals_enumConversions {d : EnumDef} (h : d.Spelled) :
    Literals (Bytes.unlines (enumConversions d))
      (d.members.flatMap (fun m => jsonTexts m.isString m.literal) ++
        d.members.map EnumMember.literal) := by
  have values : d.members.map EnumMember.literal = d.members.flatMap fun m => [m.literal] :=
    List.map_eq_flatMap
  rw [values]
  unfold enumConversions block
  refine .then_none ?_ <| .line (fixed rfl) <| .line (fixed rfl) <| .line (fixed rfl) .nil
  refine .lines_append (.then_none (.after_none ?_ (.lines_map fun m member => ?_)) ?_)
    (.lines_flatMap fun m member => ?_)
  · exact .line .nil <| .line (.part (fixed rfl) <| .part h.name <| .part (fixed rfl) .nil) .nil
  · exact .part (fixed rfl) <| .part h.name <| .part (fixed rfl) <| .part (h.members m member) <|
      literals_row_json (fixed rfl) (fixed rfl) (fixed rfl) (fixed rfl) (h.values m member)
  · exact .line (fixed rfl) <| .line .nil <|
      .line (.part (fixed rfl) <| .part h.name <| .part (fixed rfl) .nil) <|
        .line (fixed rfl) .nil
  · refine .line ?_ (.only_line (literals_row (fixed rfl) (fixed rfl) m.literal) .nil)
    exact .part (fixed rfl) <| .part h.name <| .part (fixed rfl) <| .part (h.members m member) <|
      .part (fixed rfl) .nil

/-- The declaration of an enumeration has the literals of its conversions, apart from its
documentation. -/
theorem literals_enumeration (ctx : RenderContext) {d : EnumDef} (h : d.Spelled) :
    ∃ code, enumeration ctx d = docsFor ctx d.description [] ++ code ∧
      Literals (Bytes.unlines code)
        (d.members.flatMap (fun m => jsonTexts m.isString m.literal) ++
          d.members.map EnumMember.literal) := by
  unfold enumeration
  simp only [List.append_assoc]
  refine ⟨_, rfl, ?_⟩
  refine .after_none ?_ (.after_none (.lines_map_plain fun m member => ?_) (.after_none ?_ ?_))
  · exact .line (.part (fixed rfl) <| .part h.name <| .part (fixed rfl) .nil) .nil
  · exact .part (fixed rfl) <| .part (h.members m member) <| .part (fixed rfl) .nil
  · exact .line (fixed rfl) .nil
  · split
    · next none =>
      rw [List.isEmpty_iff.mp none]
      exact .nil
    · exact literals_enumConversions h

/-! ## Unions -/

section Union

variable {c : ClassModel} {u : UnionModel} {v : UnionVariant}

theorem plain_handlerType (v : UnionVariant) : Plain (handlerType v) :=
  .part (fixed rfl) <| .part (Naming.plain_pascalCase v.slot) .nil

theorem plain_handlerCall (slot : Plain v.slot) : Plain (handlerCall v) :=
  .part (fixed rfl) <| .part (plain_handlerType v) <| .part (fixed rfl) <| .part slot <|
    .part (fixed rfl) <| .part slot <| .part (fixed rfl) .nil

theorem plain_slotType (type : Plain v.type.spell) : Plain (slotType v) := by
  unfold slotType
  split
  · exact type
  · exact .part (fixed rfl) <| .part type <| .part (fixed rfl) .nil

theorem plain_unionAccessor (slot : Plain v.slot) (type : Plain v.type.spell) :
    Plain (unionAccessor v) :=
  .part (fixed rfl) <| .part (plain_slotType type) <| .part (fixed rfl) <| .part slot <|
    .part (fixed rfl) <| .part slot <| .part (fixed rfl) .nil

theorem literals_unionConstructor (h : Verbatim c.name) (slot : Plain v.slot)
    (type : Plain v.type.spell) : Literals (Bytes.unlines (unionConstructor c v)) [v.tag] := by
  refine .line ?_ (.only_line ?_ (.line ?_ (.line (fixed rfl) (.line (fixed rfl) .nil))))
  · exact .part (fixed rfl) <| .part h.plain <| .part (fixed rfl) <| .part slot <|
      .part (fixed rfl) <| .part type <| .part (fixed rfl) .nil
  · exact .part (fixed rfl) (.part h.plain (literals_row (fixed rfl) (fixed rfl) v.tag))
  · exact .part (fixed rfl) <| .part slot <| .part (fixed rfl) .nil

theorem literals_matchBranches {variants : List UnionVariant}
    (slots : ∀ v, v ∈ variants → Plain v.slot) :
    Literals (Bytes.unlines (matchBranches variants)) [] := by
  induction variants using matchBranches.induct with
  | case1 => exact .nil
  | case2 last =>
    have call := plain_handlerCall (slots last (List.mem_singleton_self last))
    exact .line (.part (fixed rfl) <| .part call <| .part (fixed rfl) .nil) .nil
  | case3 v rest others ih =>
    obtain ⟨slot, later⟩ := List.forall_mem_cons.mp slots
    rw [matchBranches]
    · refine .after_none (.line ?_ <| .line ?_ <| .line (fixed rfl) .nil) (ih later)
      · exact .part (fixed rfl) <| .part slot <| .part (fixed rfl) .nil
      · exact .part (fixed rfl) <| .part (plain_handlerCall slot) <| .part (fixed rfl) .nil
    · exact others

/-- Matching fails with the name of the class. -/
theorem literals_unionMatch (h : Verbatim c.name) {variants : List UnionVariant}
    (slots : ∀ v, v ∈ variants → Plain v.slot) :
    Literals (Bytes.unlines (unionMatch c variants)) [c.name] := by
  unfold unionMatch block
  refine .then_none (.then_none ?_ (literals_matchBranches slots)) <|
    .line (fixed rfl) <| .line .nil .nil
  refine .line ?_ <| .line ?_ <| .line (fixed rfl) <|
    .only_line (literals_row_quoted h (fixed rfl) (fixed rfl)) <| .line (fixed rfl) .nil
  · exact .part (fixed rfl) <| .part (.join (fixed rfl) fun v _ =>
      .part (fixed rfl) <| .part (plain_handlerType v) .nil) <| .part (fixed rfl) .nil
  · exact .part (fixed rfl) <| .part (.join (fixed rfl) fun v member =>
      .part (plain_handlerType v) <| .part (fixed rfl) <| .part (slots v member) .nil) <|
        .part (fixed rfl) .nil

theorem literals_tagTest (stringTags : Bool) (strings : stringTags = true → v.tagIsString = true)
    (tag : v.tagIsString = false → SelfContained v.tag) :
    Literals (tagTest stringTags v) (jsonTexts v.tagIsString v.tag) := by
  unfold tagTest
  split
  · next all =>
    rw [strings all]
    exact literals_row (fixed rfl) (fixed rfl) v.tag
  · exact literals_row_json (fixed rfl) (fixed rfl) (fixed rfl) (fixed rfl) tag

theorem literals_decodeVariant (stringTags : Bool)
    (strings : stringTags = true → v.tagIsString = true) (slot : Plain v.slot)
    (type : Plain v.type.name) (tag : v.tagIsString = false → SelfContained v.tag) :
    Literals (Bytes.unlines (decodeVariant stringTags v)) (jsonTexts v.tagIsString v.tag) := by
  refine .only_line (literals_tagTest stringTags strings tag) (.line ?_ (.line (fixed rfl) .nil))
  split
  · exact .part (fixed rfl) <| .part slot <| .part (fixed rfl) <| .part type <| .part (fixed rfl) <|
      .part type <| .part (fixed rfl) .nil
  · exact .part (fixed rfl) <| .part slot <| .part (fixed rfl) <| .part type <|
      .part (fixed rfl) .nil

theorem literals_readTag (stringTags : Bool) (t : Bytes) :
    Literals (Bytes.unlines (readTag stringTags (Naming.literal t))) [t] := by
  unfold readTag
  split
  · exact .only_line (literals_row (fixed rfl) (fixed rfl) t) .nil
  · exact .only_line (literals_row (fixed rfl) (fixed rfl) t) <|
      .line (fixed rfl) <| .line (fixed rfl) <| .line (fixed rfl) .nil

/-- Reading a union has its tag property, the tags, and the name of the class for a failure. -/
theorem literals_unionDecode (h : Verbatim c.name) (spelled : u.Spelled) (stringTags : Bool)
    (strings : ∀ v, v ∈ u.variants → stringTags = true → v.tagIsString = true) :
    Literals (Bytes.unlines (unionDecode c stringTags (Naming.literal u.tagProperty) u.variants))
      ([u.tagProperty] ++ u.variants.flatMap (fun v => jsonTexts v.tagIsString v.tag) ++
        [c.name]) := by
  unfold unionDecode block
  refine .lines_append (.lines_append ?_ (.lines_flatMap fun v member => ?_)) ?_
  · exact .after_none (.line (.part (fixed rfl) <| .part h.plain <| .part (fixed rfl) .nil) .nil)
      (literals_readTag stringTags u.tagProperty)
  · exact literals_decodeVariant stringTags (strings v member) (spelled.slots v member)
      (spelled.types v member).1 (spelled.tags v member)
  · exact .only_line (literals_row_quoted h (fixed rfl) (fixed rfl)) <|
      .line (fixed rfl) <| .line .nil .nil

theorem literals_encodeVariant (stringTags : Bool) (t : Bytes) (type : Plain v.type.name)
    (tag : v.tagIsString = false → SelfContained v.tag) :
    Literals (encodeVariant stringTags (Naming.literal t) v)
      (if stringTags then [] else t :: jsonTexts v.tagIsString v.tag) := by
  refine .part (fixed rfl) <| .part type <| .part (fixed rfl) <| .only_part ?_ <|
    .part (fixed rfl) .nil
  split
  · exact .nil
  · -- The code between the key and the value closes the one literal and opens the other.
    have assign : bytes "] = " = bytes "]" ++ bytes " = " := by decide
    have key : Literals (row [" j[", Naming.literal t, "]"]) [t] :=
      literals_row (fixed rfl) (fixed rfl) t
    have value : Literals (row [" = ", tagExpr v, ";"]) (jsonTexts v.tagIsString v.tag) :=
      literals_row_json (fixed rfl) (fixed rfl) (fixed rfl) (fixed rfl) tag
    simpa [row, assign] using key.append value

/-- Writing a union has its tag property: once, or for each variant with its tag. -/
theorem literals_unionEncode (spelled : u.Spelled) (stringTags : Bool) :
    Literals (Bytes.unlines (unionEncode stringTags (Naming.literal u.tagProperty) u.variants))
      (if stringTags then [u.tagProperty]
      else u.variants.flatMap fun v => u.tagProperty :: jsonTexts v.tagIsString v.tag) := by
  have split : (if stringTags then [u.tagProperty]
      else u.variants.flatMap fun v => u.tagProperty :: jsonTexts v.tagIsString v.tag) =
      (u.variants.flatMap fun v =>
        if stringTags then [] else u.tagProperty :: jsonTexts v.tagIsString v.tag) ++
          if stringTags then [u.tagProperty] else [] := by
    cases stringTags <;> simp
  rw [split]
  unfold unionEncode block
  refine .then_none (.lines_append ?_ ?_) <| .line (fixed rfl) <| .line .nil .nil
  · refine .line (fixed rfl) <| .only_line (.part (fixed rfl) <| .only_part ?_ <|
      .part (fixed rfl) .nil) .nil
    exact .join (fixed rfl) fun v member =>
      literals_encodeVariant stringTags u.tagProperty (spelled.types v member).1
        (spelled.tags v member)
  · split
    · exact .only_line (literals_row (fixed rfl) (fixed rfl) u.tagProperty) .nil
    · exact .nil

/-- The class of a union has the tags where it is made, and its tag property and the tags where it
is read and written. Its own name stands in its failures. -/
theorem literals_taggedUnion (h : Verbatim c.name) (spelled : u.Spelled) :
    Literals (Bytes.unlines (taggedUnion c u))
      (u.variants.map UnionVariant.tag ++ c.name :: u.tagProperty ::
        u.variants.flatMap (fun v => jsonTexts v.tagIsString v.tag) ++ c.name ::
          if u.variants.all UnionVariant.tagIsString then [u.tagProperty]
          else u.variants.flatMap fun v => u.tagProperty :: jsonTexts v.tagIsString v.tag) := by
  have strings : ∀ v, v ∈ u.variants → u.variants.all UnionVariant.tagIsString = true →
      v.tagIsString = true := fun v member all => List.all_eq_true.mp all v member
  have lines : Literals (Bytes.unlines (taggedUnion c u))
      (u.variants.flatMap (fun v => [v.tag]) ++ [c.name] ++
        ([u.tagProperty] ++ u.variants.flatMap (fun v => jsonTexts v.tagIsString v.tag) ++
          [c.name]) ++
        if u.variants.all UnionVariant.tagIsString then [u.tagProperty]
        else u.variants.flatMap fun v => u.tagProperty :: jsonTexts v.tagIsString v.tag) := by
    unfold taggedUnion block
    -- From the last lines to the first.
    refine .then_none ?_ <| .line (fixed rfl) .nil
    refine .then_none ?_ <| .lines_map_plain fun v member =>
      .part (fixed rfl) <| .part (plain_slotType (spelled.types v member).2) <|
        .part (fixed rfl) <| .part (spelled.slots v member) <| .part (fixed rfl) .nil
    refine .then_none ?_ <| .line (fixed rfl) <|
      .line (.part (fixed rfl) <| .part h.plain <| .part (fixed rfl) .nil) <|
        .line .nil <| .line (fixed rfl) .nil
    refine .lines_append ?_ (literals_unionEncode spelled _)
    refine .lines_append ?_ (literals_unionDecode h spelled _ strings)
    refine .lines_append ?_ (literals_unionMatch h spelled.slots)
    refine .then_none ?_ <| .line .nil .nil
    refine .then_none ?_ <| .lines_map_plain fun v member =>
      plain_unionAccessor (spelled.slots v member) (spelled.types v member).2
    refine .then_none ?_ <| .line .nil <| .line (fixed rfl) .nil
    refine .after_none ?_ <| .lines_flatMap fun v member =>
      literals_unionConstructor h (spelled.slots v member) (spelled.types v member).2
    exact .line (.part (fixed rfl) <| .part h.plain <| .part (fixed rfl) .nil) <|
      .line (fixed rfl) <| .line (fixed rfl) <|
        .line (.part (fixed rfl) <| .part h.plain <| .part (fixed rfl) .nil) <| .line .nil .nil
  rw [List.map_eq_flatMap]
  simpa using lines

end Union

/-! ## The result -/

/-- Every text is written as one literal that stands for it, and where this literal ends does not
depend on what follows. So keys are told apart, and reading the code for the keys of a class, for an
enumeration and for a union gives back their texts in order, whatever these are: none leaves its
literal, and none is taken for another one. -/
theorem texts_read_back :
    (∀ t, Naming.Stands t) ∧
    (∀ t u rest rest', Naming.literal t ++ rest = Naming.literal u ++ rest' ↔
      t = u ∧ rest = rest') ∧
    (∀ c f, c.useJsonKey = false → read .free (keyExpr c f) = some ([f.key], .closed)) ∧
    (∀ c f g, keyExpr c f = keyExpr c g ↔
      if c.useJsonKey then f.name = g.name else f.key = g.key) ∧
    (∀ c indent, c.Spelled → Plain indent → Literals (Bytes.unlines (jsonKeys c indent))
      (if c.useJsonKey then c.fields.map Field.key else [])) ∧
    (∀ ctx d, d.Spelled → ∃ code, enumeration ctx d = docsFor ctx d.description [] ++ code ∧
      Literals (Bytes.unlines code)
        (d.members.flatMap (fun m => jsonTexts m.isString m.literal) ++
          d.members.map EnumMember.literal)) ∧
    ∀ c u, c.Spelled → u.Spelled → Literals (Bytes.unlines (taggedUnion c u))
      (u.variants.map UnionVariant.tag ++ c.name :: u.tagProperty ::
        u.variants.flatMap (fun v => jsonTexts v.tagIsString v.tag) ++ c.name ::
          if u.variants.all UnionVariant.tagIsString then [u.tagProperty]
          else u.variants.flatMap fun v => u.tagProperty :: jsonTexts v.tagIsString v.tag) := by
  refine ⟨Naming.stands, fun t u rest rest' => Naming.literal_append_inj, fun c f direct => ?_,
    fun c f g => keyExpr_eq_iff,
    fun c indent spelled blank => literals_jsonKeys spelled.fields blank,
    fun ctx d spelled => literals_enumeration ctx spelled,
    fun c u named spelled => literals_taggedUnion named.name spelled⟩
  rw [keyExpr, direct]
  exact read_literal f.key

/-- A class with a key that ends in a backslash, after a quote. -/
def exLabel : ClassModel where
  name := bytes "Label"
  schemaName := bytes "Label"
  shape := .record
  description := []
  deprecated := false
  useJsonKey := true
  fields := [⟨bytes "size_", bytes "si\"ze\\", .integer, true, false, false, [], []⟩]
  union := none
  alternatives := []
  inlineEnums := []
  dependencies := []
  composedFrom := []

/-- An enumeration of a string and an array. -/
def exMark : EnumDef :=
  ⟨bytes "Mark", .string,
    [⟨bytes "unknown", bytes "\"", true⟩, ⟨bytes "a_1", bytes "[\"a\",1]", false⟩], []⟩

/-- A union with a tag that is a string and one that is a number. -/
def exEither : UnionModel :=
  ⟨bytes "ki\nnd", [⟨bytes "\\\"", bytes "A", bytes "a", .named (bytes "A") false, true⟩,
    ⟨bytes "7", bytes "B", bytes "b", .named (bytes "B") false, false⟩]⟩

def exPlain : RenderContext := ⟨[], false, none⟩

theorem texts_read_back_exLabel :
    (exLabel.Spelled ∧ exMark.Spelled ∧ exEither.Spelled ∧ Plain []) ∧
    Literals (Bytes.unlines (jsonKeys exLabel [])) [bytes "si\"ze\\"] ∧
    (∃ code, enumeration exPlain exMark = docsFor exPlain [] [] ++ code ∧
      Literals (Bytes.unlines code) [bytes "\"", bytes "a", bytes "\"", bytes "[\"a\",1]"]) ∧
    Literals (Bytes.unlines (taggedUnion exLabel exEither))
      [bytes "\\\"", bytes "7", bytes "Label", bytes "ki\nnd", bytes "\\\"", bytes "Label",
        bytes "ki\nnd", bytes "\\\"", bytes "ki\nnd"] := by
  have array : Literals (bytes "[\"a\",1]") [bytes "a"] := by
    have parts : bytes "[\"a\",1]" = bytes "[" ++ Naming.literal (bytes "a") ++ bytes ",1]" := by
      decide
    exact parts ▸ .between (fixed rfl) (fixed rfl) (bytes "a")
  have seven : Literals (bytes "7") [] := literals_plain (fixed rfl)
  have named : exLabel.Spelled := ⟨by decide, by decide⟩
  have listed : exMark.Spelled := by
    refine ⟨by decide, by decide, ?_⟩
    simpa [exMark] using array.selfContained
  have tagged : exEither.Spelled := by
    refine ⟨by decide, by decide, ?_⟩
    simpa [exEither] using seven.selfContained
  have blank : Plain [] := by decide
  obtain ⟨-, -, -, -, keys, values, tags⟩ := texts_read_back
  exact ⟨⟨named, listed, tagged, blank⟩, keys exLabel [] named blank, values exPlain exMark listed,
    tags exLabel exEither named tagged⟩

end Header

end HeaderForge
