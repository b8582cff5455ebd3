import HeaderForge.Proofs.Document.Reading
import HeaderForge.Schema.Reference
/-!
# What a schema mentions

A schema is read level by level, and its mentions are collected level by level. The nodes tell the
same without the schema: `Node.parts` are the nodes that are read as the parts of a schema, and a
node holds a token when the token stands at the end of a chain of parts.

The properties beside an `allOf` become a member of it, so what they hold stands one level deeper in
the schema than in the document. `Node.Holds` counts both.

1. `composed_of_ofKeys` is one level of reading: what a schema mentions is what its parts do.
2. `mem_mentions_iff_holds` is all of them, with the depth of the mention, and by
   `levels_lt_of_holds` no token stands deeper in the document than there are levels to read.
3. `refers_iff_cites`: outside discriminators a schema mentions what its node cites.
-/

namespace HeaderForge

namespace Schema

/-! ## Mentions of the parts -/

theorem mem_mentionsOfMembers {members : List Schema} {depth : Nat} {m : Mention} :
    m ∈ mentionsOfMembers depth members ↔ ∃ member, member ∈ members ∧
      m ∈ member.mentions depth := by
  induction members with
  | nil => simp [mentionsOfMembers]
  | cons first rest ih => simp [mentionsOfMembers, ih]

theorem mem_mentionsOfProperties {properties : List (Bytes × Schema)} {depth : Nat} {m : Mention} :
    m ∈ mentionsOfProperties depth properties ↔ ∃ property, property ∈ properties ∧
      m ∈ property.2.mentions depth := by
  induction properties with
  | nil => simp [mentionsOfProperties]
  | cons first rest ih => simp [mentionsOfProperties, ih]

theorem mem_mentions_object {info : SchemaInfo} {properties : List (Bytes × Schema)}
    {required : List Bytes} {extra : Extra Schema} {depth : Nat} {m : Mention} :
    m ∈ (object info properties required extra).mentions depth ↔
      (∃ property, property ∈ properties ∧ m ∈ property.2.mentions (depth + 1)) ∨
        ∃ type, extra = .each type ∧ m ∈ type.mentions (depth + 1) := by
  cases extra <;> simp [mentions, mem_mentionsOfProperties]

/-- A token that a schema at the given depth mentions outside discriminators. -/
def Refers (s : Schema) (depth : Nat) (token : Bytes) : Prop :=
  ∃ found, ⟨token, found, false⟩ ∈ s.mentions depth

end Schema

/-! ## Parts of nodes -/

namespace Node

open Schema (itemsAt? unionAt? constAt? TypeEntry)

/-- The node that is read as the schema of what an object may hold beside its properties. -/
def extraPart : Option Node → List Node
  | some (.obj (entry :: rest)) => [.obj (entry :: rest)]
  | _ => []

/-- The nodes that are read as parts of an object. -/
def objectParts (n : Node) : List Node :=
  (((n.find? (bytes "properties")).bind entries?).getD []).map Prod.snd ++
    extraPart (n.find? (bytes "additionalProperties"))

/-- The nodes that are read as parts of a schema that is no reference. -/
def parts (n : Node) : List Node :=
  match itemsAt? n (bytes "allOf") with
  | some members =>
    if (n.find? (bytes "properties")).isSome || (n.find? (bytes "required")).isSome then
      members ++ n.objectParts
    else members
  | none =>
    match unionAt? n with
    | some (_, members) => members
    | none =>
      let keyword := (TypeEntry.ofNode (n.find? (bytes "type"))).keyword
      if (itemsAt? n (bytes "enum")).isSome || (constAt? n).isSome then []
      else if keyword = bytes "array" then (n.find? (bytes "items")).toList
      else if keyword = bytes "object" || (!(n.find? (bytes "type")).isSome &&
          ((n.find? (bytes "properties")).isSome ||
            (n.find? (bytes "additionalProperties")).isSome)) then n.objectParts
      else []

/-- A node cites the token that it refers with, or what a part of it cites. -/
inductive Cites (token : Bytes) : Node → Prop
  | here {n : Node} : n.stringAt? (bytes "$ref") = some token → Cites token n
  | part {n part : Node} : n.stringAt? (bytes "$ref") = none → part ∈ n.parts →
      Cites token part → Cites token n

/-- The parts that are members of an `allOf`, or those of a schema of another form. -/
def ownParts (n : Node) : List Node :=
  match itemsAt? n (bytes "allOf") with
  | some members => members
  | none => n.parts

/-- The parts that stand beside an `allOf` and are read as parts of its last member. -/
def besideParts (n : Node) : List Node :=
  match itemsAt? n (bytes "allOf") with
  | some _ =>
    if (n.find? (bytes "properties")).isSome || (n.find? (bytes "required")).isSome then
      n.objectParts
    else []
  | none => []

theorem mem_parts_iff {n part : Node} :
    part ∈ n.parts ↔ part ∈ n.ownParts ∨ part ∈ n.besideParts := by
  unfold ownParts besideParts
  cases members : itemsAt? n (bytes "allOf") with
  | none => simp
  | some nodes =>
    rw [parts, members]
    dsimp only
    split
    · rw [List.mem_append]
    · simp

/-- The targets of the tags of a union. -/
def mappingTargets (n : Node) : List Bytes :=
  match itemsAt? n (bytes "allOf"), unionAt? n with
  | none, some _ => Discriminator.tokens (Schema.readDiscriminator n)
  | _, _ => []

/-- A node holds a token so many levels down, a number of which lead to parts beside an `allOf`. -/
inductive Holds (token : Bytes) : (inMapping : Bool) → (levels beside : Nat) → Node → Prop
  | reference {n : Node} : n.stringAt? (bytes "$ref") = some token → Holds token false 0 0 n
  | mapping {n : Node} : n.stringAt? (bytes "$ref") = none → token ∈ n.mappingTargets →
      Holds token true 0 0 n
  | part {inMapping : Bool} {levels beside : Nat} {n part : Node} :
      n.stringAt? (bytes "$ref") = none → part ∈ n.ownParts →
      Holds token inMapping levels beside part → Holds token inMapping (levels + 1) beside n
  | beside {inMapping : Bool} {levels beside : Nat} {n part : Node} :
      n.stringAt? (bytes "$ref") = none → part ∈ n.besideParts →
      Holds token inMapping levels beside part → Holds token inMapping (levels + 1) (beside + 1) n

theorem cites_iff_holds {token : Bytes} {n : Node} :
    n.Cites token ↔ ∃ levels beside, n.Holds token false levels beside := by
  constructor
  · intro cites
    induction cites with
    | here here => exact ⟨0, 0, .reference here⟩
    | part apart member _ ih =>
      obtain ⟨levels, beside, holds⟩ := ih
      rcases mem_parts_iff.mp member with own | others
      · exact ⟨levels + 1, beside, .part apart own holds⟩
      · exact ⟨levels + 1, beside + 1, .beside apart others holds⟩
  · rintro ⟨levels, beside, holds⟩
    generalize kind : false = inMapping at holds
    induction holds with
    | reference here => exact .here here
    | mapping => exact nomatch kind
    | part apart member _ ih => exact .part apart (mem_parts_iff.mpr (.inl member)) (ih kind)
    | beside apart member _ ih => exact .part apart (mem_parts_iff.mpr (.inr member)) (ih kind)

/-- What is no object has no parts and holds nothing. -/
theorem not_holds_of_entries? {token : Bytes} {inMapping : Bool} {levels beside : Nat} {n : Node}
    (scalar : n.entries? = none) : ¬ n.Holds token inMapping levels beside := by
  have none : ∀ key, n.find? key = none := by
    cases n with
    | obj => exact nomatch scalar
    | null | bool | num | str | arr => exact fun _ => rfl
  have parts : n.ownParts = [] ∧ n.besideParts = [] ∧ n.mappingTargets = [] := by
    simp [ownParts, besideParts, mappingTargets, parts, objectParts, extraPart, itemsAt?, unionAt?,
      constAt?, TypeEntry.ofNode, none]
  intro holds
  cases holds with
  | reference here => simp [stringAt?, none] at here
  | mapping _ member => simp [parts] at member
  | part _ member => simp [parts] at member
  | beside _ member => simp [parts] at member

end Node

namespace Schema

/-! ## Reading the parts -/

/-- Every part is read as one of some schemas, and every schema is what one of the parts is read
as. -/
structure ReadAs (build : Bytes → Node → Except Bytes Schema) (parts : List Node)
    (types : List Schema) : Prop where
  read : ∀ part, part ∈ parts → ∃ t, t ∈ types ∧ ∃ context, build context part = .ok t
  source : ∀ t, t ∈ types → ∃ part, part ∈ parts ∧ ∃ context, build context part = .ok t

section

variable {build : Bytes → Node → Except Bytes Schema}

theorem readAs_nil : ReadAs build [] [] := ⟨by simp, by simp⟩

theorem ReadAs.append {xs ys : List Node} {ts us : List Schema} (first : ReadAs build xs ts)
    (second : ReadAs build ys us) : ReadAs build (xs ++ ys) (ts ++ us) := by
  refine ⟨fun part member => ?_, fun t member => ?_⟩
  · rcases List.mem_append.mp member with inFirst | inSecond
    · obtain ⟨t, inside, read⟩ := first.read part inFirst
      exact ⟨t, List.mem_append_left _ inside, read⟩
    · obtain ⟨t, inside, read⟩ := second.read part inSecond
      exact ⟨t, List.mem_append_right _ inside, read⟩
  · rcases List.mem_append.mp member with inFirst | inSecond
    · obtain ⟨part, inside, read⟩ := first.source t inFirst
      exact ⟨part, List.mem_append_left _ inside, read⟩
    · obtain ⟨part, inside, read⟩ := second.source t inSecond
      exact ⟨part, List.mem_append_right _ inside, read⟩

theorem readAs_singleton {context : Bytes} {part : Node} {t : Schema}
    (read : build context part = .ok t) : ReadAs build [part] [t] := by
  refine ⟨fun other member => ⟨t, List.mem_singleton_self t, context, ?_⟩,
    fun other member => ⟨part, List.mem_singleton_self part, context, ?_⟩⟩
  · rw [List.mem_singleton.mp member, read]
  · rw [List.mem_singleton.mp member, read]

theorem readAs_readMembers {context : Bytes} {place : Nat} {nodes : List Node}
    {members : List Schema} (h : readMembers build context place nodes = .ok members) :
    ReadAs build nodes members := by
  induction nodes generalizing place members with
  | nil =>
    cases h
    exact readAs_nil
  | cons n rest ih =>
    obtain ⟨member, read, h⟩ := ok_of_bind h
    obtain ⟨others, more, h⟩ := ok_of_bind h
    cases h
    exact (readAs_singleton read).append (ih more)

theorem readAs_readProperties {context : Bytes} {entries : List (Bytes × Node)}
    {properties : List (Bytes × Schema)}
    (h : readProperties build context entries = .ok properties) :
    ReadAs build (entries.map Prod.snd) (properties.map Prod.snd) := by
  induction entries generalizing properties with
  | nil =>
    cases h
    exact readAs_nil
  | cons entry rest ih =>
    obtain ⟨key, n⟩ := entry
    obtain ⟨property, read, h⟩ := ok_of_bind h
    obtain ⟨others, more, h⟩ := ok_of_bind h
    cases h
    exact (readAs_singleton read).append (ih more)

/-- The schema of what an object may hold beside its properties. -/
def extraTypes : Extra Schema → List Schema
  | .each type => [type]
  | .closed | .anything => []

theorem readAs_readExtra {context : Bytes} {n : Option Node} {extra : Extra Schema}
    (h : readExtra build context n = .ok extra) :
    ReadAs build (Node.extraPart n) (extraTypes extra) := by
  unfold readExtra at h
  split at h
  · cases h
    exact readAs_nil
  · cases h
    exact readAs_nil
  · next entries filled =>
    obtain ⟨type, read, h⟩ := ok_of_bind h
    cases h
    cases entries with
    | nil => exact absurd rfl filled
    | cons entry rest => exact readAs_singleton read
  · next notTrue notEmpty notObject =>
    cases h
    cases n with
    | none => exact readAs_nil
    | some n =>
      cases n with
      | obj entries => exact absurd rfl (notObject entries)
      | null | bool | num | str | arr => exact readAs_nil

/-- The properties of an object, and what else it may hold. -/
def objectTypes (properties : List (Bytes × Schema)) (extra : Extra Schema) : List Schema :=
  properties.map Prod.snd ++ extraTypes extra

theorem mem_mentions_objectTypes {info : SchemaInfo} {properties : List (Bytes × Schema)}
    {required : List Bytes} {extra : Extra Schema} {depth : Nat} {m : Mention} :
    m ∈ (object info properties required extra).mentions depth ↔
      ∃ t, t ∈ objectTypes properties extra ∧ m ∈ t.mentions (depth + 1) := by
  rw [mem_mentions_object]
  constructor
  · rintro (⟨property, member, inside⟩ | ⟨type, rfl, inside⟩)
    · exact ⟨property.2, List.mem_append_left _ (List.mem_map_of_mem member), inside⟩
    · exact ⟨type, List.mem_append_right _ (List.mem_singleton_self type), inside⟩
  · rintro ⟨t, member, inside⟩
    rcases List.mem_append.mp member with ofProperty | ofExtra
    · obtain ⟨property, declared, rfl⟩ := List.mem_map.mp ofProperty
      exact .inl ⟨property, declared, inside⟩
    · cases extra with
      | each type =>
        rw [List.mem_singleton.mp ofExtra] at inside
        exact .inr ⟨type, rfl, inside⟩
      | closed | anything => exact nomatch ofExtra

theorem readAs_readObject {context : Bytes} {info : SchemaInfo} {n : Node} {s : Schema}
    (h : readObject build context info n = .ok s) :
    ∃ types, ReadAs build n.objectParts types ∧ ∀ depth m, m ∈ s.mentions depth ↔
      ∃ t, t ∈ types ∧ m ∈ t.mentions (depth + 1) := by
  obtain ⟨properties, readProperties, h⟩ := ok_of_bind h
  obtain ⟨extra, readExtra, h⟩ := ok_of_bind h
  cases h
  exact ⟨_, (readAs_readProperties readProperties).append (readAs_readExtra readExtra),
    fun _ _ => mem_mentions_objectTypes⟩

theorem mem_mentions_discriminator {discriminator : Option Discriminator} {depth : Nat}
    {m : Mention} : m ∈ Discriminator.mentions depth discriminator ↔
      m.token ∈ Discriminator.tokens discriminator ∧ m.inMapping = true ∧ m.depth = depth := by
  obtain ⟨token, found, inMapping⟩ := m
  cases discriminator with
  | none => simp [Discriminator.mentions, Discriminator.tokens]
  | some d =>
    simp [Discriminator.mentions, Discriminator.tokens]
    grind

/-- What a schema mentions stands in the schemas of its parts, one level down, or two where the
part is beside an `allOf`, or is the target of a tag. -/
structure Composed (build : Bytes → Node → Except Bytes Schema) (n : Node) (s : Schema)
    (types siblings : List Schema) : Prop where
  own : ReadAs build n.ownParts types
  beside : ReadAs build n.besideParts siblings
  mentions : ∀ depth m, m ∈ s.mentions depth ↔
    (∃ t : Schema, t ∈ types ∧ m ∈ t.mentions (depth + 1)) ∨
    (∃ t : Schema, t ∈ siblings ∧ m ∈ t.mentions (depth + 2)) ∨
    (m.token ∈ n.mappingTargets ∧ m.inMapping = true ∧ m.depth = depth)

/-- The parts of a schema that is neither an `allOf` nor a union. -/
theorem readAs_of_ofKeys {context : Bytes} {n : Node} {s : Schema}
    (h : ofKeys build context n = .ok s) (noMembers : itemsAt? n (bytes "allOf") = none)
    (noUnion : unionAt? n = none) : ∃ types, ReadAs build n.parts types ∧
      ∀ depth m, m ∈ s.mentions depth ↔ ∃ t : Schema, t ∈ types ∧ m ∈ t.mentions (depth + 1) := by
  -- The cases are those of the reader, and `parts` makes the same ones.
  unfold ofKeys at h
  unfold Node.parts
  dsimp only at h ⊢
  simp only [noMembers, noUnion] at h ⊢
  split at h
  · next values =>
    cases h
    exact ⟨[], by simp [values, readAs_nil], by simp [mentions]⟩
  · next noValues value =>
    cases h
    exact ⟨[], by simp [value, readAs_nil], by simp [mentions]⟩
  · next noValues noValue =>
    simp only [noValues, noValue, Option.isSome_none, Bool.or_self, Bool.false_eq_true, if_false]
    split at h
    · next array =>
      rw [if_pos array]
      split at h
      · next items found =>
        obtain ⟨type, read, h⟩ := ok_of_bind h
        cases h
        rw [found]
        exact ⟨[type], readAs_singleton read, by simp [mentions]⟩
      · next missing =>
        cases h
        rw [missing]
        exact ⟨[], readAs_nil, by simp [mentions]⟩
    · next notArray =>
      rw [if_neg notArray]
      split at h
      · next object =>
        rw [if_pos object]
        exact readAs_readObject h
      · next notObject =>
        cases h
        rw [if_neg notObject]
        exact ⟨[], readAs_nil, by simp [mentions]⟩

/-- One level of reading. -/
theorem composed_of_ofKeys {context : Bytes} {n : Node} {s : Schema}
    (h : ofKeys build context n = .ok s) : ∃ types siblings, Composed build n s types siblings := by
  cases members : itemsAt? n (bytes "allOf") with
  | some nodes =>
    unfold ofKeys at h
    simp only [members] at h
    obtain ⟨types, read, h⟩ := ok_of_bind h
    have own : n.ownParts = nodes := by rw [Node.ownParts, members]
    have untagged : n.mappingTargets = [] := by simp [Node.mappingTargets, members]
    split at h
    · next others =>
      obtain ⟨sibling, object, h⟩ := ok_of_bind h
      cases h
      obtain ⟨siblings, parts, inside⟩ := readAs_readObject object
      have beside : n.besideParts = n.objectParts := by
        rw [Node.besideParts, members]
        exact if_pos others
      refine ⟨types, siblings, own ▸ readAs_readMembers read, beside ▸ parts, fun depth m => ?_⟩
      simp [mentions, mem_mentionsOfMembers, untagged, or_and_right, exists_or, inside]
    · next alone =>
      cases h
      have beside : n.besideParts = [] := by
        rw [Node.besideParts, members]
        exact if_neg alone
      refine ⟨types, [], own ▸ readAs_readMembers read, beside ▸ readAs_nil, fun depth m => ?_⟩
      simp [mentions, mem_mentionsOfMembers, untagged]
  | none =>
    have own : n.ownParts = n.parts := by rw [Node.ownParts, members]
    have beside : n.besideParts = [] := by rw [Node.besideParts, members]
    cases alternatives : unionAt? n with
    | some found =>
      obtain ⟨kind, nodes⟩ := found
      unfold ofKeys at h
      simp only [members, alternatives] at h
      obtain ⟨types, read, h⟩ := ok_of_bind h
      cases h
      have parts : n.parts = nodes := by simp [Node.parts, members, alternatives]
      have tagged : n.mappingTargets = Discriminator.tokens (readDiscriminator n) := by
        simp [Node.mappingTargets, members, alternatives]
      refine ⟨types, [], own ▸ parts ▸ readAs_readMembers read, beside ▸ readAs_nil,
        fun depth m => ?_⟩
      simp [mentions, mem_mentionsOfMembers, mem_mentions_discriminator, tagged]
    | none =>
      obtain ⟨types, parts, inside⟩ := readAs_of_ofKeys h members alternatives
      have untagged : n.mappingTargets = [] := by
        simp [Node.mappingTargets, members, alternatives]
      refine ⟨types, [], own ▸ parts, beside ▸ readAs_nil, fun depth m => ?_⟩
      simp [inside, untagged]

end

/-! ## Reading all levels -/

/-- A node that is read holds what its schema mentions at once, or its parts hold it. -/
theorem ofNode_cases {levels : Nat} {context : Bytes} {n : Node} {s : Schema}
    (h : ofNode (levels + 1) context n = .ok s) :
    (∃ info token, n.stringAt? (bytes "$ref") = some token ∧ s = reference info token) ∨
    (n.stringAt? (bytes "$ref") = none ∧
      ∃ types siblings, Composed (ofNode levels) n s types siblings) ∨
    n.entries? = none ∧ ∃ info, s = primitive info := by
  unfold ofNode at h
  split at h
  · dsimp only at h
    split at h
    · next token reference =>
      cases h
      exact .inl ⟨_, token, reference, rfl⟩
    · next keys => exact .inr (.inl ⟨keys, composed_of_ofKeys h⟩)
  · next scalar =>
    cases h
    refine .inr (.inr ⟨?_, _, rfl⟩)
    cases n with
    | obj entries => exact absurd rfl (scalar entries)
    | null | bool | num | str | arr => rfl

/-- A schema mentions what its node holds, as deep as it stands there and one level more for each
part on the way that is beside an `allOf`. -/
theorem mem_mentions_iff_holds {levels : Nat} {context : Bytes} {n : Node} {s : Schema}
    (h : ofNode levels context n = .ok s) (depth : Nat) (m : Mention) :
    m ∈ s.mentions depth ↔ ∃ below beside, n.Holds m.token m.inMapping below beside ∧
      m.depth = depth + below + beside := by
  obtain ⟨token, found, inMapping⟩ := m
  induction levels generalizing depth context n s with
  | zero => exact nomatch h
  | succ levels ih =>
    rcases ofNode_cases h with ⟨info, other, here, rfl⟩ | ⟨keys, types, siblings, composed⟩ |
      ⟨scalar, info, rfl⟩
    · rw [mentions, List.mem_singleton]
      constructor
      · rintro ⟨⟩
        exact ⟨0, 0, .reference here, rfl⟩
      · rintro ⟨below, beside, holds, rfl⟩
        cases holds with
        | reference there =>
          cases here.symm.trans there
          rfl
        | mapping apart | part apart | beside apart => exact nomatch here.symm.trans apart
    · rw [composed.mentions]
      constructor
      · rintro (⟨t, member, inside⟩ | ⟨t, member, inside⟩ | ⟨target, rfl, rfl⟩)
        · obtain ⟨part, member, _, read⟩ := composed.own.source t member
          obtain ⟨below, beside, holds, rfl⟩ := (ih read (depth + 1)).mp inside
          exact ⟨below + 1, beside, .part keys member holds, by simp only; omega⟩
        · obtain ⟨part, member, _, read⟩ := composed.beside.source t member
          obtain ⟨below, beside, holds, rfl⟩ := (ih read (depth + 2)).mp inside
          exact ⟨below + 1, beside + 1, .beside keys member holds, by simp only; omega⟩
        · exact ⟨0, 0, .mapping keys target, rfl⟩
      · rintro ⟨below, beside, holds, rfl⟩
        cases holds with
        | reference there => exact nomatch keys.symm.trans there
        | mapping _ target => exact .inr (.inr ⟨target, rfl, rfl⟩)
        | @part _ below _ _ part _ member holds =>
          obtain ⟨t, inside, _, read⟩ := composed.own.read part member
          refine .inl ⟨t, inside, (ih read (depth + 1)).mpr ⟨_, _, holds, ?_⟩⟩
          simp only
          omega
        | @beside _ below beside _ part _ member holds =>
          obtain ⟨t, inside, _, read⟩ := composed.beside.read part member
          refine .inr (.inl ⟨t, inside, (ih read (depth + 2)).mpr ⟨_, _, holds, ?_⟩⟩)
          simp only
          omega
    · rw [mentions]
      refine iff_of_false List.not_mem_nil ?_
      rintro ⟨below, beside, holds, -⟩
      exact Node.not_holds_of_entries? scalar holds

/-- No token stands deeper in the document than there are levels to read. -/
theorem levels_lt_of_holds {levels below beside : Nat} {context token : Bytes} {inMapping : Bool}
    {n : Node} {s : Schema} (h : ofNode levels context n = .ok s)
    (holds : n.Holds token inMapping below beside) : below < levels := by
  induction levels generalizing below beside context n s with
  | zero => exact nomatch h
  | succ levels ih =>
    rcases ofNode_cases h with ⟨info, other, here, -⟩ | ⟨-, types, siblings, composed⟩ |
      ⟨scalar, -⟩
    · cases holds with
      | reference => exact Nat.succ_pos levels
      | mapping apart | part apart | beside apart => exact nomatch here.symm.trans apart
    · cases holds with
      | reference | mapping => exact Nat.succ_pos levels
      | part _ member holds =>
        obtain ⟨t, -, _, read⟩ := composed.own.read _ member
        exact Nat.succ_lt_succ (ih read holds)
      | beside _ member holds =>
        obtain ⟨t, -, _, read⟩ := composed.beside.read _ member
        exact Nat.succ_lt_succ (ih read holds)
    · exact absurd holds (Node.not_holds_of_entries? scalar)

/-- Outside discriminators, a schema mentions just what its node cites. -/
theorem refers_iff_cites {levels : Nat} {context : Bytes} {n : Node} {s : Schema} {token : Bytes}
    (h : ofNode levels context n = .ok s) (depth : Nat) :
    s.Refers depth token ↔ n.Cites token := by
  rw [Refers, Node.cites_iff_holds]
  simp only [mem_mentions_iff_holds h]
  constructor
  · rintro ⟨_, below, beside, holds, _⟩
    exact ⟨below, beside, holds⟩
  · rintro ⟨below, beside, holds⟩
    exact ⟨_, below, beside, holds, rfl⟩

end Schema

end HeaderForge
