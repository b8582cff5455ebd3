import HeaderForge.Proofs.Build.Calls
import HeaderForge.Proofs.Schema.Twins
/-!
# What the check of references finds

Before any class is built, every token that a schema holds is resolved. The check goes through the
schemas by itself, so that it reports each one that is broken for its owner, and goes on.

1. `Checks` is what a part of the check does with its references, and `Checks.append` puts two parts
   together. `checks_checkTree` goes through a schema: its references are its mentions.
2. `exec_checkAll` is the whole check: it reports the broken references in order, and fails if there
   is one. By `broken_eq_nil_iff` there is none exactly if every mention resolves.
-/

namespace HeaderForge

namespace Build

variable {index : Index}

/-! ## Parts of the check -/

/-- What is reported of a token that does not resolve, beside its owner. -/
def unresolvedReport (reference : Bytes × Bytes) : Diagnostic :=
  ⟨bytes "unresolved_reference", .error, reference.1,
    bytes "reference '" ++ reference.2 ++ bytes "' does not resolve to a schema"⟩

theorem unresolvedReport_injective : Function.Injective unresolvedReport := by
  rintro ⟨owner, token⟩ ⟨other, another⟩ same
  obtain ⟨-, -, rfl, message⟩ := Diagnostic.mk.inj same
  exact congrArg _ (List.append_cancel_left (List.append_cancel_right message))

/-- The references, each a token beside its owner, that do not resolve. -/
def broken (index : Index) (references : List (Bytes × Bytes)) : List (Bytes × Bytes) :=
  references.filter fun reference => (index.resolve? reference.2).isNone

/-- The state after the broken ones among some references are reported. -/
def reporting (index : Index) (references : List (Bytes × Bytes)) (st : BuildState) : BuildState :=
  { st with diagnostics := st.diagnostics ++ (broken index references).map unresolvedReport }

/-- A step reports the broken ones among some references in order, and says whether there is
none. -/
def Checks (index : Index) (m : Build Bool) (references : List (Bytes × Bytes)) : Prop :=
  ∀ st, exec m st =
    (.ok (references.all fun reference => (index.resolve? reference.2).isSome),
      reporting index references st)

theorem checks_nil : Checks index (pure true) [] := by
  intro st
  simp [exec_pure, reporting, broken]

theorem Checks.append {m n : Build Bool} {xs ys : List (Bytes × Bytes)} (first : Checks index m xs)
    (second : Checks index n ys) :
    Checks index (do let a ← m; let b ← n; return a && b) (xs ++ ys) := by
  intro st
  rw [exec_bind, first]
  dsimp only
  rw [exec_bind, second]
  simp [exec_pure, reporting, broken]

/-! ## References of schemas -/

/-- The references of an owner to some tokens. -/
def references (owner : Bytes) (tokens : List Bytes) : List (Bytes × Bytes) :=
  tokens.map fun token => (owner, token)

@[simp] theorem references_append (owner : Bytes) (xs ys : List Bytes) :
    references owner (xs ++ ys) = references owner xs ++ references owner ys :=
  List.map_append

theorem tokens_references (owner : Bytes) (tokens : List Bytes) :
    (references owner tokens).map Prod.snd = tokens := by
  simp [references, Function.comp_def]

theorem checks_checkToken (index : Index) (owner token : Bytes) :
    Checks index (checkToken index owner token) [(owner, token)] := by
  intro st
  unfold checkToken
  cases found : index.resolve? token with
  | some s => simp [exec_pure, reporting, broken, found]
  | none =>
    have reported : exec (reportToken token owner) st =
        (.ok (), reporting index [(owner, token)] st) := by
      rw [reporting, broken, List.filter_cons_of_pos (by simp [found])]
      rfl
    dsimp only
    rw [exec_bind, reported]
    simp [exec_pure, found]

theorem checks_checkTokens (index : Index) (owner : Bytes) (tokens : List Bytes) :
    Checks index (checkTokens index owner tokens) (references owner tokens) := by
  induction tokens with
  | nil => exact checks_nil
  | cons token rest ih => exact (checks_checkToken index owner token).append ih

/-- The references of an owner that a schema holds. -/
def referencesOf (owner : Bytes) (mentions : List Mention) : List (Bytes × Bytes) :=
  references owner (mentions.map Mention.token)

mutual
theorem checks_checkTree (index : Index) (owner : Bytes) (depth : Nat) : ∀ s : Schema,
    Checks index (checkTree index owner s) (referencesOf owner (s.mentions depth))
  | .reference _ token => checks_checkToken index owner token
  | .array _ (some items) => checks_checkTree index owner (depth + 1) items
  | .object _ properties _ (.each extra) => by
    rw [Schema.mentions, referencesOf, List.map_append, references_append]
    exact (checks_checkProperties index owner (depth + 1) properties).append
      (checks_checkTree index owner (depth + 1) extra)
  | .object _ properties _ .closed | .object _ properties _ .anything =>
    checks_checkProperties index owner (depth + 1) properties
  | .allOf _ members => checks_checkMembers index owner (depth + 1) members
  | .union _ _ members discriminator => by
    have mapping : (Discriminator.mentions depth discriminator).map Mention.token =
        Discriminator.tokens discriminator := by
      cases discriminator <;> simp [Discriminator.mentions, Discriminator.tokens]
    rw [Schema.mentions, referencesOf, List.map_append, references_append, mapping]
    exact (checks_checkMembers index owner (depth + 1) members).append
      (checks_checkTokens index owner _)
  | .primitive _ | .enumeration _ _ | .array _ none => checks_nil

theorem checks_checkMembers (index : Index) (owner : Bytes) (depth : Nat) :
    ∀ members : List Schema, Checks index (checkMembers index owner members)
      (referencesOf owner (Schema.mentionsOfMembers depth members))
  | [] => checks_nil
  | member :: rest => by
    rw [Schema.mentionsOfMembers, referencesOf, List.map_append, references_append]
    exact (checks_checkTree index owner depth member).append
      (checks_checkMembers index owner depth rest)

theorem checks_checkProperties (index : Index) (owner : Bytes) (depth : Nat) :
    ∀ properties : List (Bytes × Schema), Checks index (checkProperties index owner properties)
      (referencesOf owner (Schema.mentionsOfProperties depth properties))
  | [] => checks_nil
  | (_, property) :: rest => by
    rw [Schema.mentionsOfProperties, referencesOf, List.map_append, references_append]
    exact (checks_checkTree index owner depth property).append
      (checks_checkProperties index owner depth rest)
end

/-- The references of some schemas, in the order in which they are checked. -/
def allReferences (schemas : List NamedSchema) : List (Bytes × Bytes) :=
  schemas.flatMap fun s => referencesOf s.name (s.schema.mentions 0)

theorem checks_checkSchemas (index : Index) (schemas : List NamedSchema) :
    Checks index (checkSchemas index schemas) (allReferences schemas) := by
  induction schemas with
  | nil => exact checks_nil
  | cons s rest ih =>
    rw [allReferences, List.flatMap_cons]
    exact (checks_checkTree index s.name 0 s.schema).append ih

theorem mem_allReferences {schemas : List NamedSchema} {reference : Bytes × Bytes} :
    reference ∈ allReferences schemas ↔ ∃ s, s ∈ schemas ∧ ∃ m, m ∈ s.schema.mentions 0 ∧
      (s.name, m.token) = reference := by
  simp [allReferences, referencesOf, references]

theorem broken_eq_nil_iff (index : Index) :
    broken index (allReferences index.named) = [] ↔ index.Resolved := by
  rw [broken, List.filter_eq_nil_iff]
  constructor
  · intro none s hs m hm
    have found := none (s.name, m.token) (mem_allReferences.mpr ⟨s, hs, m, hm, rfl⟩)
    exact Option.ne_none_iff_exists'.mp (by simpa using found)
  · intro resolved reference member
    obtain ⟨s, hs, m, hm, rfl⟩ := mem_allReferences.mp member
    obtain ⟨t, found⟩ := resolved s hs m hm
    simp [found]

/-- A check of all references reports the broken ones in order, and fails if there is one. -/
theorem exec_checkAll (index : Index) (st : BuildState) :
    exec (checkAll index) st =
      (if broken index (allReferences index.named) = [] then .ok ()
        else .error .unresolvedReference,
        reporting index (allReferences index.named) st) := by
  have all : ((allReferences index.named).all fun r => (index.resolve? r.2).isSome) = true ↔
      broken index (allReferences index.named) = [] := by
    simp [broken, Option.isSome_iff_ne_none]
  unfold checkAll
  rw [exec_bind, checks_checkSchemas index index.named]
  dsimp only
  by_cases none : broken index (allReferences index.named) = []
  · rw [if_pos none, if_pos (all.mpr none)]
    rfl
  · rw [if_neg none, if_neg fun found => none (all.mp found)]
    rfl

theorem silent_reporting (index : Index) (references : List (Bytes × Bytes)) (st : BuildState) :
    Silent st (reporting index references st) := ⟨⟨rfl, rfl, rfl⟩, rfl⟩

/-- A check that succeeds has found a schema for every token, and has changed nothing. -/
theorem resolved_of_checkAll {st u : BuildState}
    (h : exec (checkAll index) st = (.ok (), u)) : index.Resolved ∧ Silent st u := by
  rw [exec_checkAll] at h
  split at h
  · next none =>
    cases h
    exact ⟨(broken_eq_nil_iff index).mp none, silent_reporting index _ st⟩
  · exact nomatch h

end Build

end HeaderForge
