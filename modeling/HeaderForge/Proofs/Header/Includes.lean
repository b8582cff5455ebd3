import HeaderForge.Header.Includes
import HeaderForge.Proofs.Build.Typing
import Mathlib.Data.List.Infix
/-!
# A type includes what its spelling writes

How a type is spelled and what it includes are two recursions, and each decides for itself where a
pointer or an optional stands. They agree: a type includes the headers of the components of the
standard library that its spelling writes, and no others.

1. `Component.all` are the components, each with its header.
2. `TypeRef.Formed` are the types that are made for schemas: `Build.gives_typeOf_formed`.
3. `Header.mentions_spell_iff` goes along such a type. What is spelled between the brackets of a
   list, map or pointer cannot run into what stands around them: `infix_enclosed_iff`.
4. `Header.typeIncludes_exact` is the result. `TypeRef.nameless` sets aside what names write.
-/

namespace HeaderForge

/-! ## Components -/

/-- What types are spelled with, and the header of the standard library that declares it. -/
structure Component where
  spelling : Bytes
  header : Bytes
deriving DecidableEq, Repr

namespace Component

def string : Component := ⟨"std::string", "string"⟩
def integer : Component := ⟨"std::int64_t", "cstdint"⟩
def vector : Component := ⟨"std::vector", "vector"⟩
def map : Component := ⟨"std::map", "map"⟩
def pointer : Component := ⟨"std::shared_ptr", "memory"⟩
def optional : Component := ⟨"std::optional", "optional"⟩

def all : List Component := [string, integer, vector, map, pointer, optional]

/-- The line that includes the header. -/
def line (k : Component) : Bytes := Header.systemInclude k.header

/-- A spelling has a byte, and none that types are put together with. -/
structure Plain (w : Bytes) : Prop where
  some : w ≠ []
  opening : byte '<' ∉ w
  closing : byte '>' ∉ w
  blank : byte ' ' ∉ w

theorem plain_spelling {k : Component} (h : k ∈ all) : Plain k.spelling := by
  have facts : ∀ k ∈ all, k.spelling ≠ [] ∧ byte '<' ∉ k.spelling ∧ byte '>' ∉ k.spelling ∧
      byte ' ' ∉ k.spelling := by decide +kernel
  obtain ⟨some, opening, closing, blank⟩ := facts k h
  exact ⟨some, opening, closing, blank⟩

end Component

/-! ## Types that are made for schemas -/

theorem TypeKind.mem_all (kind : TypeKind) : kind ∈ all := by cases kind <;> decide

namespace TypeRef

/-- Lists and maps have one argument, and other types have none. -/
inductive Formed : TypeRef → Prop
  | bare {kind : TypeKind} {name : Bytes} {indirect : Bool} : kind ≠ .list → kind ≠ .map →
      Formed ⟨kind, name, indirect, []⟩
  | list {name : Bytes} {indirect : Bool} {element : TypeRef} : Formed element →
      Formed ⟨.list, name, indirect, [element]⟩
  | map {name : Bytes} {indirect : Bool} {value : TypeRef} : Formed value →
      Formed ⟨.map, name, indirect, [value]⟩

/-- The name of a class, an enumeration or a configured type that the type is or that occurs in
it. -/
inductive Spells (written : Bytes) : TypeRef → Prop
  | itself {kind : TypeKind} {indirect : Bool} {args : List TypeRef} :
      kind = .named ∨ kind = .enumeration ∨ kind = .custom →
      Spells written ⟨kind, written, indirect, args⟩
  | inside {kind : TypeKind} {name : Bytes} {indirect : Bool} {args : List TypeRef}
      {arg : TypeRef} : arg ∈ args → Spells written arg →
      Spells written ⟨kind, name, indirect, args⟩

mutual

/-- A type whose names are all empty. -/
def nameless : TypeRef → TypeRef
  | ⟨kind, _, indirect, args⟩ => ⟨kind, [], indirect, allNameless args⟩

def allNameless : List TypeRef → List TypeRef
  | [] => []
  | t :: rest => nameless t :: allNameless rest

end

theorem Formed.nameless {t : TypeRef} (h : t.Formed) : t.nameless.Formed := by
  induction h with
  | bare noList noMap => exact .bare noList noMap
  | list _ ih => exact .list ih
  | map _ ih => exact .map ih

theorem holdsNothing_nameless (t : TypeRef) : t.nameless.holdsNothing = t.holdsNothing := by
  cases t
  rfl

/-- A name that is written in the type has the text in it. -/
def Hides (t : TypeRef) (w : Bytes) : Prop := ∃ name, t.Spells name ∧ w <:+: name

theorem hides_bare_iff {kind : TypeKind} {name w : Bytes} {indirect : Bool} :
    Hides ⟨kind, name, indirect, []⟩ w ↔
      (kind = .named ∨ kind = .enumeration ∨ kind = .custom) ∧ w <:+: name := by
  constructor
  · rintro ⟨written, spells, inside⟩
    cases spells with
    | itself named => exact ⟨named, inside⟩
    | inside none => exact nomatch none
  · rintro ⟨named, inside⟩
    exact ⟨name, .itself named, inside⟩

/-- A list or a map writes no name but those of its argument. -/
theorem hides_around_iff {kind : TypeKind} (other : kind = .list ∨ kind = .map) {name w : Bytes}
    {indirect : Bool} {arg : TypeRef} :
    Hides ⟨kind, name, indirect, [arg]⟩ w ↔ Hides arg w := by
  constructor
  · rintro ⟨written, spells, inside⟩
    cases spells with
    | itself named => rcases other with rfl | rfl <;> simp at named
    | inside there deeper =>
      obtain rfl := List.mem_singleton.mp there
      exact ⟨written, deeper, inside⟩
  · rintro ⟨written, spells, inside⟩
    exact ⟨written, .inside List.mem_cons_self spells, inside⟩

theorem not_hides_nameless {t : TypeRef} (formed : t.Formed) {w : Bytes} (some : w ≠ []) :
    ¬ t.nameless.Hides w := by
  induction formed with
  | bare => exact fun hides => some (List.infix_nil.mp (hides_bare_iff.mp hides).2)
  | list _ ih => exact fun hides => ih ((hides_around_iff (.inl rfl)).mp hides)
  | map _ ih => exact fun hides => ih ((hides_around_iff (.inr rfl)).mp hides)

end TypeRef

namespace Build

theorem TypeFor.formed {c : TypeContext} {key : Bytes} {core : Schema} {st after : BuildState}
    {t : TypeRef} (typed : TypeFor c key core st t after) : t.Formed := by
  induction typed with
  | reference | enumeration => exact .bare nofun nofun
  | plain _ _ other =>
    exact .bare (fun same => other (by simp [same])) fun same => other (by simp [same])
  | list _ ih => exact .list ih
  | map _ ih => exact .map ih

/-- Every type that is made for a schema is formed. -/
theorem gives_typeOf_formed (c : TypeContext) (key : Bytes) (s : Schema) (st : BuildState) :
    Gives (typeOf c key s) st fun t _ => t.Formed :=
  (gives_typeOf c key s st).mono fun _ _ => TypeFor.formed

end Build

/-! ## Parts of texts -/

/-- What has no separator in it stands on one side of each. -/
theorem infix_separated_iff {w front back : Bytes} {mark : UInt8} (whole : mark ∉ w) :
    w <:+: front ++ mark :: back ↔ w <:+: front ∨ w <:+: back := by
  constructor
  · rintro ⟨before, after, split⟩
    rcases List.append_eq_append_iff.mp split with ⟨more, inFront, -⟩ | ⟨more, past, rest⟩
    · exact .inl ⟨before, more, inFront.symm⟩
    rcases List.cons_eq_append_iff.mp rest with ⟨rfl, -⟩ | ⟨more, rfl, behind⟩
    · rw [List.append_nil] at past
      exact .inl ⟨before, [], by rw [List.append_nil, past]⟩
    -- The mark stands in what comes before the part, as it does not stand in the part.
    rcases List.append_eq_append_iff.mp past with ⟨part, -, here⟩ | ⟨part, -, here⟩
    · exact absurd (here ▸ List.mem_append_right part List.mem_cons_self) whole
    · rcases List.cons_eq_append_iff.mp here with ⟨-, rfl⟩ | ⟨part, -, tail⟩
      · exact absurd List.mem_cons_self whole
      · exact .inr ⟨part, after, by rw [behind, tail]⟩
  · rintro (inFront | inBack)
    · exact inFront.trans (List.prefix_append _ _).isInfix
    · exact inBack.trans (List.suffix_append_of_suffix (List.suffix_cons mark back)).isInfix

/-- What types are put together with keeps what they are put together from apart. -/
theorem infix_enclosed_iff {w front inner : Bytes} {mark : UInt8} (plain : Component.Plain w)
    (separates : mark ∉ w) :
    w <:+: front ++ mark :: (inner ++ [byte '>']) ↔ w <:+: front ∨ w <:+: inner := by
  rw [infix_separated_iff separates, infix_separated_iff plain.closing, List.infix_nil]
  simp [plain.some]

/-! ## The result -/

namespace Header

open Component (Plain plain_spelling)

/-- What a type of a kind writes before its name or its argument, or in place of them. -/
def ownText : (kind : TypeKind) → (indirect : Bool) → Bytes
  | .string, _ => bytes "std::string"
  | .integer, _ => bytes "std::int64_t"
  | .number, _ => bytes "double"
  | .boolean, _ => bytes "bool"
  | .any, _ => bytes "nlohmann::json"
  | .named, true => bytes "std::shared_ptr"
  | .named, false | .enumeration, _ | .custom, _ => []
  | .list, _ => bytes "std::vector"
  | .map, _ => bytes "std::map<std::string,"

theorem mentions_ownText_iff {k : Component} (member : k ∈ Component.all) (kind : TypeKind)
    (indirect : Bool) :
    k.spelling <:+: ownText kind indirect ↔ k.line ∈ kindIncludes kind indirect := by
  -- A single closed check evaluates each text once.
  have check : ∀ k ∈ Component.all, ∀ kind ∈ TypeKind.all, ∀ indirect : Bool,
      k.spelling <:+: ownText kind indirect ↔ k.line ∈ kindIncludes kind indirect := by
    decide +kernel
  exact check k member kind kind.mem_all indirect

theorem plainIncludes_bare (kind : TypeKind) (name : Bytes) (indirect : Bool) :
    plainIncludes ⟨kind, name, indirect, []⟩ = kindIncludes kind indirect := by
  rw [plainIncludes, allIncludes, List.append_nil]

theorem plainIncludes_around (kind : TypeKind) (name : Bytes) (indirect : Bool) (arg : TypeRef) :
    plainIncludes ⟨kind, name, indirect, [arg]⟩ =
      kindIncludes kind indirect ++ plainIncludes arg := by
  rw [plainIncludes, allIncludes, allIncludes, List.append_nil]

/-- The spelling of a type writes the components whose headers the type includes, and what its
names write. -/
theorem mentions_spell_iff {k : Component} (member : k ∈ Component.all) {t : TypeRef}
    (formed : t.Formed) :
    k.spelling <:+: t.spell ↔ k.line ∈ plainIncludes t ∨ t.Hides k.spelling := by
  have plain := plain_spelling member
  induction formed with
  | @bare kind name indirect noList noMap =>
    rw [plainIncludes_bare, TypeRef.hides_bare_iff, ← mentions_ownText_iff member]
    cases kind with
    | list => exact absurd rfl noList
    | map => exact absurd rfl noMap
    | string | integer | number | boolean | any => simp [TypeRef.spell, ownText]
    | enumeration | custom => simp [TypeRef.spell, ownText, plain.some]
    | named =>
      cases indirect with
      | false => simp [TypeRef.spell, ownText, plain.some]
      | true =>
        have text : TypeRef.spell ⟨.named, name, true, []⟩ =
            ownText .named true ++ byte '<' :: (name ++ [byte '>']) := by
          simp [TypeRef.spell, ownText, bytes, byte]
        rw [text, infix_enclosed_iff plain plain.opening]
        simp
  | @list name indirect element formed ih =>
    have text : TypeRef.spell ⟨.list, name, indirect, [element]⟩ =
        ownText .list indirect ++ byte '<' :: (element.spell ++ [byte '>']) := by
      simp [TypeRef.spell, ownText, bytes, byte]
    have inner : k.spelling <:+: element.spell ↔
        k.line ∈ plainIncludes element ∨ element.Hides k.spelling := ih
    rw [text, infix_enclosed_iff plain plain.opening, mentions_ownText_iff member, inner,
      plainIncludes_around, TypeRef.hides_around_iff (.inl rfl), List.mem_append, or_assoc]
  | @map name indirect value formed ih =>
    have text : TypeRef.spell ⟨.map, name, indirect, [value]⟩ =
        ownText .map indirect ++ byte ' ' :: (value.spell ++ [byte '>']) := by
      simp [TypeRef.spell, ownText, bytes, byte]
    have inner : k.spelling <:+: value.spell ↔
        k.line ∈ plainIncludes value ∨ value.Hides k.spelling := ih
    rw [text, infix_enclosed_iff plain plain.blank, mentions_ownText_iff member, inner,
      plainIncludes_around, TypeRef.hides_around_iff (.inr rfl), List.mem_append, or_assoc]

/-- The spelling of a type that may be absent writes an optional exactly where the type includes
one. -/
theorem mentions_spellNullable_iff {k : Component} (member : k ∈ Component.all) {t : TypeRef}
    (formed : t.Formed) (nullable : Bool) :
    k.spelling <:+: t.spellNullable nullable ↔
      k.line ∈ typeIncludes t nullable ∨ t.Hides k.spelling := by
  have plain := plain_spelling member
  have inner := mentions_spell_iff member formed
  unfold TypeRef.spellNullable typeIncludes
  split
  · have own : k.spelling <:+: bytes "std::optional" ↔ k.line ∈ [optionalInclude] := by
      have check : ∀ k ∈ Component.all,
          k.spelling <:+: bytes "std::optional" ↔ k.line ∈ [optionalInclude] := by decide +kernel
      exact check k member
    have text : bytes "std::optional<" ++ t.spell ++ bytes ">" =
        bytes "std::optional" ++ byte '<' :: (t.spell ++ [byte '>']) := by
      simp [bytes, byte]
    rw [text, infix_enclosed_iff plain plain.opening, own, inner, List.mem_append, or_assoc]
  · rwa [List.nil_append]

/-! ### The headers of components -/

theorem component_of_mem_kindIncludes {kind : TypeKind} {indirect : Bool} {line : Bytes}
    (h : line ∈ kindIncludes kind indirect) : ∃ k, k ∈ Component.all ∧ k.line = line := by
  have check : ∀ kind ∈ TypeKind.all, ∀ indirect : Bool, ∀ line ∈ kindIncludes kind indirect,
      line ∈ Component.all.map Component.line := by
    decide +kernel
  exact List.mem_map.mp (check kind kind.mem_all indirect line h)

mutual

theorem component_of_mem_plainIncludes {line : Bytes} :
    (t : TypeRef) → line ∈ plainIncludes t → ∃ k, k ∈ Component.all ∧ k.line = line
  | ⟨kind, name, indirect, args⟩, h => by
    rw [plainIncludes, List.mem_append] at h
    exact h.elim component_of_mem_kindIncludes (component_of_mem_allIncludes args)

theorem component_of_mem_allIncludes {line : Bytes} :
    (ts : List TypeRef) → line ∈ allIncludes ts → ∃ k, k ∈ Component.all ∧ k.line = line
  | [], h => nomatch h
  | t :: rest, h => by
    rw [allIncludes, List.mem_append] at h
    exact h.elim (component_of_mem_plainIncludes t) (component_of_mem_allIncludes rest)

end

theorem component_of_mem_typeIncludes {line : Bytes} {t : TypeRef} {nullable : Bool}
    (h : line ∈ typeIncludes t nullable) : ∃ k, k ∈ Component.all ∧ k.line = line := by
  rcases List.mem_append.mp h with absent | plain
  · split at absent
    · exact ⟨.optional, by decide, (List.mem_singleton.mp absent).symm⟩
    · exact nomatch absent
  · exact component_of_mem_plainIncludes t plain

/-! ### Types without names -/

theorem plainIncludes_nameless {t : TypeRef} (formed : t.Formed) :
    plainIncludes t.nameless = plainIncludes t := by
  induction formed with
  | bare => rfl
  | list _ ih =>
    rw [plainIncludes_around, ← ih]
    exact plainIncludes_around _ _ _ _
  | map _ ih =>
    rw [plainIncludes_around, ← ih]
    exact plainIncludes_around _ _ _ _

theorem typeIncludes_nameless {t : TypeRef} (formed : t.Formed) (nullable : Bool) :
    typeIncludes t.nameless nullable = typeIncludes t nullable := by
  unfold typeIncludes
  rw [TypeRef.holdsNothing_nameless, plainIncludes_nameless formed]

/-- Every type that is made for a schema is formed, and a formed type, which may be absent or not,
includes exactly the headers of the components that its spelling writes when its names are set
aside. The names themselves are all that its spelling may write in addition. -/
theorem typeIncludes_exact :
    (∀ (c : Build.TypeContext) (key : Bytes) (s : Schema) (st : BuildState),
      Gives (Build.typeOf c key s) st fun t _ => t.Formed) ∧
    ∀ (t : TypeRef) (nullable : Bool), t.Formed →
      (∀ line, line ∈ typeIncludes t nullable ↔
        ∃ k, k ∈ Component.all ∧ k.spelling <:+: t.nameless.spellNullable nullable ∧
          k.line = line) ∧
      ∀ k, k ∈ Component.all → (k.spelling <:+: t.spellNullable nullable ↔
        k.spelling <:+: t.nameless.spellNullable nullable ∨ t.Hides k.spelling) := by
  refine ⟨Build.gives_typeOf_formed, fun t nullable formed => ?_⟩
  have written : ∀ k, k ∈ Component.all →
      (k.spelling <:+: t.nameless.spellNullable nullable ↔ k.line ∈ typeIncludes t nullable) := by
    intro k member
    have none := TypeRef.not_hides_nameless formed (plain_spelling member).some
    rw [mentions_spellNullable_iff member formed.nameless, typeIncludes_nameless formed,
      or_iff_left none]
  refine ⟨fun line => ⟨fun included => ?_, ?_⟩, fun k member => ?_⟩
  · obtain ⟨k, member, rfl⟩ := component_of_mem_typeIncludes included
    exact ⟨k, member, (written k member).mpr included, rfl⟩
  · rintro ⟨k, member, writes, rfl⟩
    exact (written k member).mp writes
  · rw [mentions_spellNullable_iff member formed, written k member]

/-- Lists of a configured type by name. -/
def exTable : TypeRef := .map (.list (.custom "std::optional<Id>"))

theorem typeIncludes_exact_exTable :
    exTable.Formed ∧ exTable.spellNullable false =
      bytes "std::map<std::string, std::vector<std::optional<Id>>>" ∧
    (∀ line, line ∈ typeIncludes exTable false ↔
      ∃ k, k ∈ Component.all ∧ k.spelling <:+: exTable.nameless.spellNullable false ∧
        k.line = line) ∧
    typeIncludes exTable false =
      [Component.map.line, Component.string.line, Component.vector.line] := by
  have formed : exTable.Formed := .map (.list (.bare nofun nofun))
  exact ⟨formed, by decide +kernel, (typeIncludes_exact.2 exTable false formed).1,
    by decide +kernel⟩

end Header

end HeaderForge
