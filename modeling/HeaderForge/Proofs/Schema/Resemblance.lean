import HeaderForge.Proofs.Bytes.Entries
import HeaderForge.Proofs.Bytes.Sorting
import HeaderForge.Proofs.Schema.Mentions
import HeaderForge.Proofs.Schema.Reference
import Mathlib.Data.List.Forall2
/-!
# Schemas that resemble each other

Some parts of a document should not matter for the classes that are built from it: the order of the
properties of an object, the keys that it requires, and the nodes that its schemas were read from. A
`Leeway` says which of the first two may differ, the nodes always may.

1. `Schema.Resembles` relates schemas up to a leeway, at every depth, and `Index.Resembles` indexes.
2. `Schema.Resembles.mem_mentions`: schemas that resemble each other mention the same tokens.
3. `Index.Resembles.closesCycle_eq`: the same references close a cycle in both indexes.
-/

namespace HeaderForge

open List (Forall₂)

/-- What two schemas may differ in, beside the nodes that they were read from. -/
structure Leeway where
  /-- Whether the properties may come in another order. -/
  order : Bool
  /-- Whether other keys may be required. -/
  required : Bool
deriving DecidableEq, Repr

/-- Entries with the same key and related values. -/
inductive AtKey {α β : Type} (R : α → β → Prop) : Bytes × α → Bytes × β → Prop
  | intro (key : Bytes) {a : α} {b : β} : R a b → AtKey R (key, a) (key, b)

inductive Extra.Rel {α β : Type} (R : α → β → Prop) : Extra α → Extra β → Prop
  | closed : Rel R .closed .closed
  | anything : Rel R .anything .anything
  | each {a : α} {b : β} : R a b → Rel R (.each a) (.each b)

theorem rel_cases {α β : Type} {R : α → β → Prop} {x : Option α} {y : Option β}
    (h : Option.Rel R x y) :
    (x = none ∧ y = none) ∨ ∃ a b, x = some a ∧ y = some b ∧ R a b := by
  cases h with
  | none => exact .inl ⟨rfl, rfl⟩
  | some related => exact .inr ⟨_, _, rfl, rfl, related⟩

/-- Lists of entries that stand in pairs have related values at each key. -/
theorem lookup_rel {α β : Type} {R : Bytes → α → β → Prop} {xs : List (Bytes × α)}
    {ys : List (Bytes × β)} (pairs : Forall₂ (fun x y => y.1 = x.1 ∧ R x.1 x.2 y.2) xs ys)
    (key : Bytes) : Option.Rel (R key) (xs.lookup key) (ys.lookup key) := by
  induction pairs with
  | nil => exact .none
  | @cons x y _ _ head _ ih =>
    obtain ⟨first, a⟩ := x
    obtain ⟨first', b⟩ := y
    obtain ⟨rfl, related⟩ : first' = first ∧ R first a b := head
    rw [lookup_cons_if, lookup_cons_if]
    split
    · next same => exact .some (same ▸ related)
    · exact ih

theorem AtKey.values {α β : Type} {R : α → β → Prop} {x : Bytes × α} {y : Bytes × β}
    (h : AtKey R x y) : y.1 = x.1 ∧ R x.2 y.2 := by
  obtain ⟨key, related⟩ := h
  exact ⟨rfl, related⟩

namespace Leeway

/-- The second list may stand where the first one does. -/
def Arranges (l : Leeway) (xs ys : List (Bytes × Schema)) : Prop :=
  if l.order then xs.Perm ys else xs = ys

def Requires (l : Leeway) (xs ys : List Bytes) : Prop := l.required = true ∨ xs = ys

theorem Arranges.perm {l : Leeway} {xs ys : List (Bytes × Schema)} (h : l.Arranges xs ys) :
    xs.Perm ys := by
  unfold Arranges at h
  split at h
  · exact h
  · exact h ▸ List.Perm.refl xs

end Leeway

/-- Equal up to a leeway. Everything else has to be equal but for the nodes: names, tokens, values,
the order of members and the mappings of discriminators. -/
inductive Schema.Resembles (l : Leeway) : Schema → Schema → Prop
  | primitive (info : SchemaInfo) (n : Node) :
    Resembles l (.primitive info) (.primitive { info with source := n })
  | enumeration (info : SchemaInfo) (n : Node) (values : LiteralList) :
    Resembles l (.enumeration info values) (.enumeration { info with source := n } values)
  | reference (info : SchemaInfo) (n : Node) (token : Bytes) :
    Resembles l (.reference info token) (.reference { info with source := n } token)
  | array (info : SchemaInfo) (n : Node) {items items' : Option Schema} :
    Option.Rel (Resembles l) items items' →
    Resembles l (.array info items) (.array { info with source := n } items')
  | object (info : SchemaInfo) (n : Node) {properties arranged properties' : List (Bytes × Schema)}
    {required required' : List Bytes} {extra extra' : Extra Schema} :
    Forall₂ (AtKey (Resembles l)) properties arranged → l.Arranges arranged properties' →
    l.Requires required required' → Extra.Rel (Resembles l) extra extra' →
    Resembles l (.object info properties required extra)
      (.object { info with source := n } properties' required' extra')
  | allOf (info : SchemaInfo) (n : Node) {members members' : List Schema} :
    Forall₂ (Resembles l) members members' →
    Resembles l (.allOf info members) (.allOf { info with source := n } members')
  | union (info : SchemaInfo) (n : Node) (kind : UnionKind) {members members' : List Schema}
    (discriminator : Option Discriminator) :
    Forall₂ (Resembles l) members members' →
    Resembles l (.union info kind members discriminator)
      (.union { info with source := n } kind members' discriminator)

/-- The schemas resemble each other under the same name. -/
structure NamedSchema.Resembles (l : Leeway) (a b : NamedSchema) : Prop where
  name : b.name = a.name
  schema : a.schema.Resembles l b.schema

/-- The indexes hold schemas that resemble each other, under the same names in the same order. -/
def Index.Resembles (l : Leeway) (i j : Index) : Prop :=
  Forall₂ (NamedSchema.Resembles l) i.named j.named

variable {l : Leeway}

namespace Schema.Resembles

variable {s s' : Schema}

/-! ## What is the same at once -/

theorem info_eq (h : s.Resembles l s') : ∃ n, s'.info = { s.info with source := n } := by
  cases h <;> exact ⟨_, rfl⟩

theorem token?_eq (h : s.Resembles l s') : s'.token? = s.token? := by
  cases h <;> rfl

/-- Neither an order nor a requirement makes properties appear. -/
theorem nil_iff {properties arranged properties' : List (Bytes × Schema)}
    (entries : Forall₂ (AtKey (Resembles l)) properties arranged)
    (arranges : l.Arranges arranged properties') : properties = [] ↔ properties' = [] := by
  rw [← List.length_eq_zero_iff, ← List.length_eq_zero_iff, entries.length_eq,
    arranges.perm.length_eq]

theorem keys_eq {R : Schema → Schema → Prop} {xs ys : List (Bytes × Schema)}
    (entries : Forall₂ (AtKey R) xs ys) : xs.map Prod.fst = ys.map Prod.fst := by
  induction entries with
  | nil => rfl
  | cons head _ ih =>
    obtain ⟨key, -⟩ := head
    rw [List.map_cons, List.map_cons, ih]

/-- Sorted by their keys, the properties stand in pairs, as long as no key comes twice where the
order may differ. -/
theorem sortKeys {properties arranged properties' : List (Bytes × Schema)}
    (entries : Forall₂ (AtKey (Resembles l)) properties arranged)
    (arranges : l.Arranges arranged properties')
    (distinct : l.order = true → (properties.map Prod.fst).Nodup) :
    Forall₂ (AtKey (Resembles l)) (Bytes.sortKeys properties) (Bytes.sortKeys properties') := by
  have sorted : Forall₂ (AtKey (Resembles l)) (Bytes.sortKeys properties)
      (Bytes.sortKeys arranged) := by
    refine sortBy_forall₂ ?_ entries
    rintro _ _ ⟨key, -⟩ _ _ ⟨other, -⟩
    rfl
  have same : Bytes.sortKeys arranged = Bytes.sortKeys properties' := by
    unfold Leeway.Arranges at arranges
    split at arranges
    · next free => exact Bytes.sortKeys_eq_of_perm arranges (keys_eq entries ▸ distinct free)
    · rw [arranges]
  rwa [same] at sorted

/-- What they hold at a key resembles each other, too. -/
theorem lookup {properties arranged properties' : List (Bytes × Schema)}
    (entries : Forall₂ (AtKey (Resembles l)) properties arranged)
    (arranges : l.Arranges arranged properties')
    (distinct : l.order = true → (properties.map Prod.fst).Nodup) (key : Bytes) :
    Option.Rel (Resembles l) (properties.lookup key) (properties'.lookup key) := by
  have pairs : Option.Rel (Resembles l) (properties.lookup key) (arranged.lookup key) :=
    lookup_rel (R := fun _ => Resembles l) (entries.imp fun _ _ => AtKey.values) key
  have same : arranged.lookup key = properties'.lookup key := by
    unfold Leeway.Arranges at arranges
    split at arranges
    · next free => exact lookup_perm arranges (keys_eq entries ▸ distinct free) key
    · rw [arranges]
  rwa [same] at pairs

/-! ## Mentions -/

/-- Schemas that resemble each other mention the same tokens at the same depths. -/
theorem mem_mentions (h : s.Resembles l s') (depth : Nat) (m : Mention) :
    m ∈ s.mentions depth ↔ m ∈ s'.mentions depth := by
  -- The induction is on the recursion of `mentions`; its other motives are about lists of members
  -- and of properties, each against the list that stands in its place.
  refine mentions.induct
    (fun depth s => ∀ s', s.Resembles l s' → (m ∈ s.mentions depth ↔ m ∈ s'.mentions depth))
    (fun depth members => ∀ members', Forall₂ (Resembles l) members members' →
      (m ∈ mentionsOfMembers depth members ↔ m ∈ mentionsOfMembers depth members'))
    (fun depth properties => ∀ arranged, Forall₂ (AtKey (Resembles l)) properties arranged →
      (m ∈ mentionsOfProperties depth properties ↔ m ∈ mentionsOfProperties depth arranged))
    ?reference ?array ?each ?object ?allOf ?union ?primitive ?enumeration ?untyped ?noProperty
    ?property ?noMember ?member depth s s' h
  case reference | primitive | enumeration =>
    intros
    rename_i h
    cases h
    rfl
  case array =>
    intro depth info items ih s' h
    cases h with
    | array _ n items =>
      cases items with
      | some item =>
        rw [mentions, mentions]
        exact ih _ item
  case untyped =>
    intro depth info s' h
    cases h with
    | array _ n items =>
      cases items
      rfl
  case each =>
    intro depth info properties required extra ihProperties ih s' h
    cases h with
    | object _ n entries arranges _ type =>
      cases type with
      | each type =>
        rw [mentions, mentions, List.mem_append, List.mem_append, ihProperties _ entries,
          ih _ type, mem_mentionsOfProperties, mem_mentionsOfProperties]
        simp only [arranges.perm.mem_iff]
  case object =>
    intro depth info properties required extra notEach ih s' h
    cases h with
    | object _ n entries arranges _ type =>
      rw [mem_mentions_object, mem_mentions_object, ← mem_mentionsOfProperties, ih _ entries,
        mem_mentionsOfProperties]
      simp only [arranges.perm.mem_iff]
      refine or_congr Iff.rfl ?_
      cases type with
      | each => exact absurd rfl (notEach _)
      | closed | anything => simp
  case allOf =>
    intro depth info members ih s' h
    cases h with
    | allOf _ n members =>
      rw [mentions, mentions]
      exact ih _ members
  case union =>
    intro depth info kind members discriminator ih s' h
    cases h with
    | union _ n _ _ members =>
      rw [mentions, mentions, List.mem_append, List.mem_append, ih _ members]
  case noProperty | noMember =>
    intro depth others h
    cases h
    rfl
  case property =>
    intro depth key property rest ih others arranged h
    cases h with
    | cons head tail =>
      cases head with
      | intro _ related =>
        rw [mentionsOfProperties, mentionsOfProperties, List.mem_append, List.mem_append,
          ih _ related, others _ tail]
  case member =>
    intro depth member rest ih others members' h
    cases h with
    | cons head tail =>
      rw [mentionsOfMembers, mentionsOfMembers, List.mem_append, List.mem_append, ih _ head,
        others _ tail]

end Schema.Resembles

namespace Index

variable {i j : Index} {N : NamedSchema → NamedSchema → Prop}

/-- Schemas that stand in pairs under the same names are found in pairs. -/
theorem find?_rel (names : ∀ a b, N a b → b.name = a.name) (pairs : Forall₂ N i.named j.named)
    (name : Bytes) : Option.Rel N (i.find? name) (j.find? name) := by
  unfold Index.find?
  generalize i.named = xs at pairs ⊢
  generalize j.named = ys at pairs ⊢
  induction pairs with
  | nil => exact .none
  | cons head _ ih =>
    rw [List.find?_cons, List.find?_cons, names _ _ head]
    split
    · exact .some head
    · exact ih

theorem resolve?_rel (names : ∀ a b, N a b → b.name = a.name) (pairs : Forall₂ N i.named j.named)
    (token : Bytes) : Option.Rel N (i.resolve? token) (j.resolve? token) := by
  unfold Index.resolve?
  cases referenceName? token with
  | none => exact .none
  | some name => exact find?_rel names pairs name

end Index

namespace Index.Resembles

variable {i j : Index}

/-! ## Names and references -/

theorem names_eq (h : i.Resembles l j) : j.names = i.names := by
  unfold Index.Resembles at h
  unfold names
  generalize i.named = xs at h ⊢
  generalize j.named = ys at h ⊢
  induction h with
  | nil => rfl
  | cons head _ ih => rw [List.map_cons, List.map_cons, head.name, ih]

theorem length_eq (h : i.Resembles l j) : j.named.length = i.named.length :=
  (Forall₂.length_eq h).symm

/-- Under a name, both indexes have schemas that resemble each other, or none. -/
theorem find? (h : i.Resembles l j) (name : Bytes) :
    Option.Rel (NamedSchema.Resembles l) (i.find? name) (j.find? name) :=
  find?_rel (fun _ _ same => same.name) h name

theorem resolve? (h : i.Resembles l j) (token : Bytes) :
    Option.Rel (NamedSchema.Resembles l) (i.resolve? token) (j.resolve? token) :=
  resolve?_rel (fun _ _ same => same.name) h token

/-- A token finds a schema of the same name in both indexes. -/
theorem resolve?_name_eq (h : i.Resembles l j) (token : Bytes) :
    (j.resolve? token).map NamedSchema.name = (i.resolve? token).map NamedSchema.name := by
  rcases rel_cases (h.resolve? token) with ⟨here, there⟩ | ⟨a, b, here, there, related⟩
  · rw [here, there]
  · rw [here, there, Option.map_some, Option.map_some, related.name]

/-! ## Cycles -/

/-- The edges may come in another order only. -/
theorem mem_edges (h : i.Resembles l j) (source target : Bytes) :
    target ∈ i.edges source ↔ target ∈ j.edges source := by
  unfold edges
  rcases rel_cases (h.find? source) with ⟨here, there⟩ | ⟨a, b, here, there, related⟩
  · rw [here, there]
  · rw [here, there, mem_directReferences, mem_directReferences]
    simp only [related.schema.mem_mentions 0, ← Option.map_eq_some_iff, h.resolve?_name_eq]

theorem leads_iff (h : i.Resembles l j) (source target : Bytes) :
    i.Leads source target ↔ j.Leads source target := by
  constructor
  · intro chain
    induction chain with
    | edge e => exact .edge ((h.mem_edges _ _).mp e)
    | step _ e ih => exact .step ih ((h.mem_edges _ _).mp e)
  · intro chain
    induction chain with
    | edge e => exact .edge ((h.mem_edges _ _).mpr e)
    | step _ e ih => exact .step ih ((h.mem_edges _ _).mpr e)

/-- The same references close a cycle: it depends on which chains there are, and not on the order in
which they are found. -/
theorem closesCycle_eq (h : i.Resembles l j) (source target : Bytes) :
    j.closesCycle source target = i.closesCycle source target := by
  rw [Bool.eq_iff_iff, closesCycle_iff, closesCycle_iff, h.leads_iff]

end Index.Resembles

end HeaderForge
