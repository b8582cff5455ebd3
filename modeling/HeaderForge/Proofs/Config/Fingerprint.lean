import HeaderForge.Proofs.Config.Namespaces
import HeaderForge.Proofs.Config.Settings
import HeaderForge.Build.Classes
import HeaderForge.Header.Style
/-!
# What a fingerprint tells apart

A fingerprint puts the texts of the settings side by side, with marks between them. Whether it can
be read back depends on the marks that stand in the texts themselves.

1. `split_first`, `split_ends` and `split_spelled` are the ways in which two equal texts are cut at
   the same place.
2. `Config.Legible` says which marks an override may hold, and `overrides_injective` that overrides
   like that are read back from their text.
3. `settings_eq_of_fingerprint` is what a fingerprint tells apart in general, and
   `not_separates` shows overrides that it does not tell apart.
-/

namespace HeaderForge

/-! ## Cutting texts -/

/-- Two equal texts are the same up to their first marks, and have the same mark there. -/
theorem split_first {M : UInt8 → Prop} {a a' r r' : Bytes} {m m' : UInt8}
    (free : ∀ b, b ∈ a → ¬ M b) (free' : ∀ b, b ∈ a' → ¬ M b) (here : M m)
    (here' : M m') (same : a ++ m :: r = a' ++ m' :: r') : a = a' ∧ m = m' ∧ r = r' := by
  induction a generalizing a' with
  | nil =>
    cases a' with
    | nil =>
      obtain ⟨mark, rest⟩ := List.cons.inj same
      exact ⟨rfl, mark, rest⟩
    | cons b rest =>
      obtain ⟨rfl, -⟩ := List.cons.inj same
      exact absurd here (free' m List.mem_cons_self)
  | cons b rest ih =>
    cases a' with
    | nil =>
      obtain ⟨rfl, -⟩ := List.cons.inj same
      exact absurd here' (free b List.mem_cons_self)
    | cons b' rest' =>
      obtain ⟨rfl, later⟩ := List.cons.inj same
      obtain ⟨rfl, marks⟩ := ih (fun x hx => free x (List.mem_cons_of_mem _ hx))
        (fun x hx => free' x (List.mem_cons_of_mem _ hx)) later
      exact ⟨rfl, marks⟩

theorem split_at {m : UInt8} {a a' r r' : Bytes} (free : m ∉ a) (free' : m ∉ a')
    (same : a ++ m :: r = a' ++ m :: r') : a = a' ∧ r = r' := by
  have apart : ∀ {t : Bytes}, m ∉ t → ∀ b, b ∈ t → ¬ b = m := fun free b hb h => free (h ▸ hb)
  obtain ⟨front, -, back⟩ := split_first (M := (· = m)) (apart free) (apart free') rfl rfl same
  exact ⟨front, back⟩

/-- A text is over, or goes on with a comma or a semicolon. -/
def Ends (t : Bytes) : Prop := ∀ b rest, t = b :: rest → b = byte ',' ∨ b = byte ';'

theorem ends_nil : Ends [] := fun _ _ h => nomatch h

theorem ends_cons {b : UInt8} {rest : Bytes} (mark : b = byte ',' ∨ b = byte ';') :
    Ends (b :: rest) := by
  intro b' rest' h
  cases h
  exact mark

/-- Two equal texts are the same up to where neither goes on with other bytes than marks, if the
longer one has no byte that the shorter one could end before. -/
theorem split_of_no_rest {a a' r r' : Bytes} (same : a ++ r = a' ++ r')
    (left : ∀ b x, a' = a ++ b :: x → r ≠ b :: x ++ r')
    (right : ∀ b x, a = a' ++ b :: x → r' ≠ b :: x ++ r) : a = a' ∧ r = r' := by
  rcases List.append_eq_append_iff.mp same with ⟨x, longer, rest⟩ | ⟨x, longer, rest⟩
  · cases x with
    | nil => exact ⟨(longer.trans (List.append_nil a)).symm, rest⟩
    | cons b x => exact absurd rest (left b x longer)
  · cases x with
    | nil => exact ⟨longer.trans (List.append_nil a'), rest.symm⟩
    | cons b x => exact absurd rest (right b x longer)

/-- No comma and no semicolon stands in the text. -/
def Unbroken (t : Bytes) : Prop := byte ',' ∉ t ∧ byte ';' ∉ t

theorem Unbroken.not_mem {t : Bytes} (h : Unbroken t) {b : UInt8}
    (mark : b = byte ',' ∨ b = byte ';') : b ∉ t := by
  rcases mark with rfl | rfl
  · exact h.1
  · exact h.2

theorem split_ends {a a' r r' : Bytes} (whole : Unbroken a) (whole' : Unbroken a') (ends : Ends r)
    (ends' : Ends r') (same : a ++ r = a' ++ r') : a = a' ∧ r = r' := by
  refine split_of_no_rest same (fun b x longer rest => ?_) fun b x longer rest => ?_
  · exact whole'.not_mem (ends b _ rest) (by simp [longer])
  · exact whole.not_mem (ends' b _ rest) (by simp [longer])

/-! ## Parts of overrides -/

/-- None of the marks of a list of pairs stands in the text. -/
structure Word (t : Bytes) : Prop where
  unbroken : Unbroken t
  noEqual : byte '=' ∉ t
  noGreater : byte '>' ∉ t

/-- What comes after a pair: nothing, the next schema, or a word with an equals sign after it. -/
inductive Follows : Bytes → Prop
  | done : Follows []
  | schema {rest : Bytes} : Follows (byte ';' :: rest)
  | word {t rest : Bytes} : Word t → Follows (byte ',' :: t ++ byte '=' :: rest)

theorem Follows.ends {t : Bytes} (h : Follows t) : Ends t := by
  cases h with
  | done => exact ends_nil
  | schema => exact ends_cons (.inr rfl)
  | word => exact ends_cons (.inl rfl)

/-- The text has no semicolon, and no equals sign after a comma. -/
structure Spelled (t : Bytes) : Prop where
  noSemicolon : byte ';' ∉ t
  noEqual : byte '=' ∉ t.dropWhile (· ≠ byte ',')

/-- What comes after the byte where a search ends is left by the search. -/
theorem mem_dropWhile_of_stop {p : UInt8 → Bool} {m b : UInt8} (stop : p m = false)
    (front : Bytes) {back : Bytes} (member : b ∈ back) :
    b ∈ (front ++ m :: back).dropWhile p := by
  induction front with
  | nil =>
    rw [List.nil_append, List.dropWhile_cons, stop]
    exact List.mem_cons_of_mem _ member
  | cons first rest ih =>
    rw [List.cons_append, List.dropWhile_cons]
    split
    · exact ih
    · exact List.mem_cons_of_mem _ (List.mem_append_right _ (List.mem_cons_of_mem _ member))

theorem Spelled.not_mem_after {front back : Bytes} (h : Spelled (front ++ byte ',' :: back)) :
    byte '=' ∉ back := fun equal =>
  h.noEqual (mem_dropWhile_of_stop (by simp) front equal)

/-- A type may hold commas, since no word with an equals sign begins at one of them. -/
theorem split_spelled {a a' r r' : Bytes} (spelled : Spelled a) (spelled' : Spelled a')
    (follows : Follows r) (follows' : Follows r') (same : a ++ r = a' ++ r') :
    a = a' ∧ r = r' := by
  -- A longer text would go on with the beginning of a word, and its rest with the end of the word.
  have none : ∀ {a a' r r' : Bytes}, Spelled a' → Follows r → Follows r' → ∀ b x,
      a' = a ++ b :: x → r ≠ b :: x ++ r' := by
    intro a a' r r' spelled' follows follows' b x longer rest
    cases follows with
    | done => exact nomatch rest
    | schema =>
      obtain ⟨rfl, -⟩ := List.cons.inj rest
      exact spelled'.noSemicolon (by simp [longer])
    | @word t z word =>
      have comma : byte ',' = b := (List.cons.inj rest).1
      have later : t ++ byte '=' :: z = x ++ r' := (List.cons.inj rest).2
      subst comma
      have noEqual : byte '=' ∉ x := (longer ▸ spelled').not_mem_after
      -- What is left of the text after the word, or of the word, would have to begin with a mark.
      have noStart : r' ≠ byte '=' :: z := fun h => by
        rcases follows'.ends _ _ h with h | h <;> exact absurd h (by decide)
      rcases List.append_eq_append_iff.mp later with ⟨y, front, back⟩ | ⟨y, front, back⟩
      · cases y with
        | nil => exact noStart back.symm
        | cons c y =>
          obtain ⟨rfl, -⟩ := List.cons.inj back
          exact noEqual (by simp [front])
      · cases y with
        | nil => exact noStart back
        | cons c y =>
          exact word.unbroken.not_mem (follows'.ends c _ back) (by simp [front])
  exact split_of_no_rest same (none spelled' follows follows') (none spelled follows' follows)

namespace Config

/-! ## Overrides -/

/-- No mark in an override can be taken for one of those that the fingerprint puts between its
parts: the schema's name has no colon, a class name that is given is not empty, keys and types are
free of all marks that could end them, and so are names. Types may be spelled with commas. -/
structure Legible (name : Bytes) (o : SchemaOverride) : Prop where
  name : byte ':' ∉ name
  className : ∀ n, o.className = some n → n ≠ [] ∧ Unbroken n
  keys : ∀ p, p ∈ o.fieldNames → byte '>' ∉ p.1 ∧ byte '=' ∉ p.1
  identifiers : ∀ p, p ∈ o.fieldNames → Unbroken p.2
  types : ∀ p, p ∈ o.typeMapping → Word p.1 ∧ p.1 ≠ bytes "json_key"
  spelled : ∀ p, p ∈ o.typeMapping → Spelled p.2

theorem pairsText_cons (link : UInt8) (key value : Bytes) (rest : List (Bytes × Bytes))
    (r : Bytes) : pairsText link ((key, value) :: rest) ++ r =
      byte ',' :: (key ++ link :: (value ++ (pairsText link rest ++ r))) := by
  simp [pairsText]

/-- What an override says about JSON keys. -/
def jsonKeyText : Option Bool → Bytes
  | some useJsonKey => bytes ",json_key=" ++ flag useJsonKey
  | none => []

theorem word_jsonKey : Word (bytes "json_key") :=
  ⟨⟨by decide, by decide⟩, by decide, by decide⟩

/-- The rest of a fingerprint after an override. -/
inductive Rest : Bytes → Prop
  | done : Rest []
  | schema {rest : Bytes} : Rest (byte ';' :: rest)

theorem follows_jsonKeyText {r : Bytes} (rest : Rest r) (useJsonKey : Option Bool) :
    Follows (jsonKeyText useJsonKey ++ r) := by
  cases useJsonKey with
  | some b => exact .word (t := bytes "json_key") word_jsonKey
  | none =>
    cases rest with
    | done => exact .done
    | schema => exact .schema

theorem flag_injective {b b' : Bool} {r r' : Bytes} (same : flag b ++ r = flag b' ++ r') :
    b = b' ∧ r = r' := by
  rcases b <;> rcases b'
  · exact ⟨rfl, (List.cons.inj same).2⟩
  · exact absurd (List.cons.inj same).1 (by decide)
  · exact absurd (List.cons.inj same).1 (by decide)
  · exact ⟨rfl, (List.cons.inj same).2⟩

theorem jsonKeyText_injective {r r' : Bytes} (rest : Rest r) (rest' : Rest r')
    {u u' : Option Bool} (same : jsonKeyText u ++ r = jsonKeyText u' ++ r') : u = u' ∧ r = r' := by
  -- An override that says nothing goes on with a semicolon, and one that says something does not.
  have none : ∀ {b : Bool} {r r' : Bytes}, Rest r → jsonKeyText .none ++ r ≠
      jsonKeyText (some b) ++ r' := by
    intro b r r' rest h
    cases rest with
    | done => exact nomatch h
    | schema => exact absurd (List.cons.inj h).1 (by decide)
  rcases u with _ | b <;> rcases u' with _ | b'
  · exact ⟨rfl, same⟩
  · exact absurd same (none rest)
  · exact absurd same.symm (none rest')
  · have flags : flag b ++ r = flag b' ++ r' := by
      simpa [jsonKeyText, List.append_assoc] using same
    obtain ⟨rfl, rests⟩ := flag_injective flags
    exact ⟨rfl, rests⟩

theorem follows_types {types : List (Bytes × Bytes)} {r : Bytes} (rest : Rest r)
    (words : ∀ p, p ∈ types → Word p.1 ∧ p.1 ≠ bytes "json_key") (useJsonKey : Option Bool) :
    Follows (pairsText (byte '=') types ++ (jsonKeyText useJsonKey ++ r)) := by
  cases types with
  | nil => exact follows_jsonKeyText rest useJsonKey
  | cons p others =>
    obtain ⟨type, spelled⟩ := p
    rw [pairsText_cons]
    exact .word (words _ List.mem_cons_self).1

theorem types_injective {types types' : List (Bytes × Bytes)} {u u' : Option Bool} {r r' : Bytes}
    (rest : Rest r) (rest' : Rest r')
    (words : ∀ p, p ∈ types → Word p.1 ∧ p.1 ≠ bytes "json_key")
    (words' : ∀ p, p ∈ types' → Word p.1 ∧ p.1 ≠ bytes "json_key")
    (spelled : ∀ p, p ∈ types → Spelled p.2) (spelled' : ∀ p, p ∈ types' → Spelled p.2)
    (same : pairsText (byte '=') types ++ (jsonKeyText u ++ r) =
      pairsText (byte '=') types' ++ (jsonKeyText u' ++ r')) :
    types = types' ∧ u = u' ∧ r = r' := by
  -- The first type of a mapping is no word that says something about JSON keys.
  have none : ∀ {p : Bytes × Bytes} {rest' : List (Bytes × Bytes)} {u : Option Bool}
      {r t : Bytes}, Rest r → Word p.1 ∧ p.1 ≠ bytes "json_key" →
      jsonKeyText u ++ r ≠ pairsText (byte '=') (p :: rest') ++ t := by
    intro p others u r t rest ⟨word, other⟩ h
    obtain ⟨type, spelled⟩ := p
    rw [pairsText_cons] at h
    cases u with
    | none =>
      cases rest with
      | done => exact nomatch h
      | schema => exact absurd (List.cons.inj h).1 (by decide)
    | some b =>
      have later : bytes "json_key" ++ byte '=' :: (flag b ++ r) =
          type ++ byte '=' :: (spelled ++ _) := (List.cons.inj h).2
      exact other (split_at word_jsonKey.noEqual word.noEqual later).1.symm
  induction types generalizing types' with
  | nil =>
    cases types' with
    | nil =>
      obtain ⟨sameKey, rest⟩ := jsonKeyText_injective rest rest' same
      exact ⟨rfl, sameKey, rest⟩
    | cons p others => exact absurd same (none rest (words' p List.mem_cons_self))
  | cons p others ih =>
    cases types' with
    | nil => exact absurd same.symm (none rest' (words p List.mem_cons_self))
    | cons p' others' =>
      obtain ⟨first, later⟩ := List.forall_mem_cons.mp words
      obtain ⟨first', later'⟩ := List.forall_mem_cons.mp words'
      obtain ⟨whole, wholes⟩ := List.forall_mem_cons.mp spelled
      obtain ⟨whole', wholes'⟩ := List.forall_mem_cons.mp spelled'
      obtain ⟨type, text⟩ := p
      obtain ⟨type', text'⟩ := p'
      rw [pairsText_cons, pairsText_cons] at same
      obtain ⟨rfl, values⟩ := split_at first.1.noEqual first'.1.noEqual (List.cons.inj same).2
      obtain ⟨rfl, others⟩ := split_spelled whole whole' (follows_types rest later u)
        (follows_types rest' later' u') values
      obtain ⟨rfl, ends⟩ := ih later later' wholes wholes' others
      exact ⟨rfl, ends⟩

theorem ends_fields {fields : List (Bytes × Bytes)} {r : Bytes} (follows : Follows r) :
    Ends (pairsText (byte '>') fields ++ r) := by
  cases fields with
  | nil => exact follows.ends
  | cons p others =>
    rw [pairsText_cons]
    exact ends_cons (.inl rfl)

theorem fields_injective {fields fields' : List (Bytes × Bytes)} {r r' : Bytes}
    (follows : Follows r) (follows' : Follows r')
    (keys : ∀ p, p ∈ fields → byte '>' ∉ p.1 ∧ byte '=' ∉ p.1)
    (keys' : ∀ p, p ∈ fields' → byte '>' ∉ p.1 ∧ byte '=' ∉ p.1)
    (identifiers : ∀ p, p ∈ fields → Unbroken p.2)
    (identifiers' : ∀ p, p ∈ fields' → Unbroken p.2)
    (same : pairsText (byte '>') fields ++ r = pairsText (byte '>') fields' ++ r') :
    fields = fields' ∧ r = r' := by
  -- After a comma a key is followed by its own mark, and a word of the rest by an equals sign.
  have none : ∀ {p : Bytes × Bytes} {others : List (Bytes × Bytes)} {r t : Bytes}, Follows r →
      byte '>' ∉ p.1 ∧ byte '=' ∉ p.1 → r ≠ pairsText (byte '>') (p :: others) ++ t := by
    intro p others r t follows ⟨noGreater, noEqual⟩ h
    obtain ⟨key, identifier⟩ := p
    rw [pairsText_cons] at h
    cases follows with
    | done => exact nomatch h
    | schema => exact absurd (List.cons.inj h).1 (by decide)
    | @word t z word =>
      have later : t ++ byte '=' :: z = key ++ byte '>' :: _ := (List.cons.inj h).2
      have marks := (split_first (M := fun b => b = byte '=' ∨ b = byte '>')
        (fun b hb mark => ?_) (fun b hb mark => ?_) (.inl rfl) (.inr rfl) later).2.1
      · exact absurd marks (by decide)
      · rcases mark with rfl | rfl
        · exact word.noEqual hb
        · exact word.noGreater hb
      · rcases mark with rfl | rfl
        · exact noEqual hb
        · exact noGreater hb
  induction fields generalizing fields' with
  | nil =>
    cases fields' with
    | nil => exact ⟨rfl, same⟩
    | cons p others => exact absurd same (none follows (keys' p List.mem_cons_self))
  | cons p others ih =>
    cases fields' with
    | nil => exact absurd same.symm (none follows' (keys p List.mem_cons_self))
    | cons p' others' =>
      obtain ⟨first, later⟩ := List.forall_mem_cons.mp keys
      obtain ⟨first', later'⟩ := List.forall_mem_cons.mp keys'
      obtain ⟨whole, wholes⟩ := List.forall_mem_cons.mp identifiers
      obtain ⟨whole', wholes'⟩ := List.forall_mem_cons.mp identifiers'
      obtain ⟨key, identifier⟩ := p
      obtain ⟨key', identifier'⟩ := p'
      rw [pairsText_cons, pairsText_cons] at same
      obtain ⟨rfl, values⟩ := split_at first.1 first'.1 (List.cons.inj same).2
      obtain ⟨rfl, others⟩ := split_ends whole whole' (ends_fields follows) (ends_fields follows')
        values
      obtain ⟨rfl, rests⟩ := ih later later' wholes wholes' others
      exact ⟨rfl, rests⟩

theorem rest_overrides (schemas : List (Bytes × SchemaOverride)) :
    Rest (schemas.flatMap fun (name, o) => overrideText name o) := by
  cases schemas with
  | nil => exact .done
  | cons first rest => exact .schema

theorem overrideText_append (name : Bytes) (o : SchemaOverride) (r : Bytes) :
    overrideText name o ++ r = bytes ";schema=" ++ (name ++ byte ':' :: (o.className.getD [] ++
      (pairsText (byte '>') o.fieldNames ++ (pairsText (byte '=') o.typeMapping ++
        (jsonKeyText o.useJsonKey ++ r))))) := by
  obtain ⟨className, fieldNames, typeMapping, useJsonKey⟩ := o
  cases useJsonKey <;> simp only [overrideText, jsonKeyText, List.append_assoc, List.cons_append]

theorem Legible.unbroken {name : Bytes} {o : SchemaOverride} (h : Legible name o) :
    Unbroken (o.className.getD []) := by
  cases given : o.className with
  | none => exact ⟨List.not_mem_nil, List.not_mem_nil⟩
  | some n => exact (h.className n given).2

/-- Names that are not empty are given alike if their texts are the same. -/
theorem className_eq {c c' : Option Bytes} (some_ : ∀ n, c = some n → n ≠ [])
    (some' : ∀ n, c' = some n → n ≠ []) (same : c.getD [] = c'.getD []) : c = c' := by
  cases c with
  | none =>
    cases c' with
    | none => rfl
    | some n' => exact absurd same.symm (some' n' rfl)
  | some n =>
    cases c' with
    | none => exact absurd same (some_ n rfl)
    | some n' => exact congrArg some same

/-- An override and what comes after it are read back from their text. -/
theorem override_injective {name name' : Bytes} {o o' : SchemaOverride} {r r' : Bytes}
    (rest : Rest r) (rest' : Rest r') (legible : Legible name o) (legible' : Legible name' o')
    (same : overrideText name o ++ r = overrideText name' o' ++ r') :
    name = name' ∧ o = o' ∧ r = r' := by
  rw [overrideText_append, overrideText_append] at same
  have named := List.append_cancel_left same
  obtain ⟨sameName, after⟩ := split_at legible.name legible'.name named
  have follows := follows_types rest legible.types o.useJsonKey
  have follows' := follows_types rest' legible'.types o'.useJsonKey
  obtain ⟨className, fields⟩ := split_ends legible.unbroken legible'.unbroken
    (ends_fields follows) (ends_fields follows') after
  obtain ⟨fieldNames, types⟩ := fields_injective follows follows' legible.keys legible'.keys
    legible.identifiers legible'.identifiers fields
  obtain ⟨typeMapping, useJsonKey, rests⟩ := types_injective rest rest' legible.types
    legible'.types legible.spelled legible'.spelled types
  obtain ⟨c, f, t, u⟩ := o
  obtain ⟨c', f', t', u'⟩ := o'
  have given : c = c' := className_eq (fun n h => (legible.className n h).1)
    (fun n h => (legible'.className n h).1) className
  subst sameName given fieldNames typeMapping useJsonKey
  exact ⟨rfl, rfl, rests⟩

/-- Legible overrides are read back from their text. -/
theorem overrides_injective {schemas schemas' : List (Bytes × SchemaOverride)}
    (legible : ∀ s, s ∈ schemas → Legible s.1 s.2)
    (legible' : ∀ s, s ∈ schemas' → Legible s.1 s.2)
    (same : (schemas.flatMap fun (name, o) => overrideText name o) =
      schemas'.flatMap fun (name, o) => overrideText name o) : schemas = schemas' := by
  induction schemas generalizing schemas' with
  | nil =>
    cases schemas' with
    | nil => rfl
    | cons first others => exact nomatch same
  | cons first others ih =>
    cases schemas' with
    | nil => exact nomatch same
    | cons first' others' =>
      obtain ⟨one, later⟩ := List.forall_mem_cons.mp legible
      obtain ⟨one', later'⟩ := List.forall_mem_cons.mp legible'
      obtain ⟨name, o⟩ := first
      obtain ⟨name', o'⟩ := first'
      obtain ⟨rfl, rfl, rests⟩ := override_injective (rest_overrides others)
        (rest_overrides others') one one' same
      rw [ih later later' rests]

/-! ## Whole fingerprints -/

theorem not_mem_style (s : Style) : byte ';' ∉ s.name := by
  cases s <;> decide

theorem not_mem_of_isNamespace {t : Bytes} (namespace_ : isNamespace t = true) : byte ';' ∉ t :=
  fun member => by
    rcases Namespace.plain_of_isNamespace namespace_ member with colon | word
    · exact absurd colon (by decide)
    · exact absurd word (by decide)

theorem fingerprint_eq (c : Config) (style : Bytes) : c.fingerprint style =
    bytes "backend=" ++ (style ++ byte ';' :: (bytes "ns=" ++ (c.targetNamespace ++ byte ';' ::
      (bytes "docs=" ++ (flag c.generateDocs ++ (bytes ";json_key=" ++ (flag c.useJsonKey ++
        c.schemas.flatMap fun (name, o) => overrideText name o))))))) := by
  have marks : bytes ";ns=" = byte ';' :: bytes "ns=" ∧
      bytes ";docs=" = byte ';' :: bytes "docs=" := by decide
  unfold fingerprint
  rw [marks.1, marks.2]
  simp only [List.append_assoc, List.cons_append]

/-- What a fingerprint in common says about two settings that texts give. The settings agree about
the style, the namespace, the documentation and the JSON keys. If their overrides are legible, the
classes of a document depend on the same settings in both. -/
theorem settings_eq_of_fingerprint {t t' : Bytes} {c c' : Config} {s s' : Style}
    (read : Config.read t = .ok c) (read' : Config.read t' = .ok c')
    (same : c.fingerprint s.name = c'.fingerprint s'.name) :
    s = s' ∧ c.targetNamespace = c'.targetNamespace ∧ c.generateDocs = c'.generateDocs ∧
      c.useJsonKey = c'.useJsonKey ∧
      ((∀ o, o ∈ c.schemas → Legible o.1 o.2) → (∀ o, o ∈ c'.schemas → Legible o.1 o.2) →
        c.modelSettings = c'.modelSettings) := by
  rw [fingerprint_eq, fingerprint_eq] at same
  obtain ⟨style, same⟩ := split_at (not_mem_style s) (not_mem_style s')
    (List.append_cancel_left same)
  obtain ⟨namespace_, same⟩ := split_at (not_mem_of_isNamespace (isNamespace_of_read read))
    (not_mem_of_isNamespace (isNamespace_of_read read')) (List.append_cancel_left same)
  obtain ⟨docs, same⟩ := flag_injective (List.append_cancel_left same)
  obtain ⟨useJsonKey, overrides⟩ := flag_injective (List.append_cancel_left same)
  refine ⟨?_, namespace_, docs, useJsonKey, fun legible legible' => ?_⟩
  · cases s <;> cases s' <;> first | rfl | exact absurd style (by decide)
  · unfold modelSettings
    rw [useJsonKey, overrides_injective legible legible' overrides]

/-! ## Overrides that are not told apart -/

/-- Settings with a fingerprint in common agree about a choice for every schema. -/
def Separates {β : Type} (choice : ModelSettings → Bytes → β) : Prop :=
  ∀ (t t' : Bytes) (c c' : Config) (s s' : Style), Config.read t = .ok c →
    Config.read t' = .ok c' → c.fingerprint s.name = c'.fingerprint s'.name →
    ∀ name, choice c.modelSettings name = choice c'.modelSettings name

/-- A configuration with these settings for pets and others beside. -/
def exText (others pets : List (Bytes × Node)) : Bytes :=
  (Node.obj ((bytes "schemas", .obj [(bytes "Pet", .obj pets)]) :: others)).toJson

/-- An override whose type is spelled with a comma. -/
def exPets : List (Bytes × Node) :=
  [(bytes "className", .str "Animal"), (bytes "fieldNames", .obj [(bytes "id", .str "key")]),
    (bytes "typeMapping", .obj [(bytes "integer", .str "std::map<int, int>"),
      (bytes "string:date", .str "Date")]), (bytes "useJsonKey", .bool true)]

def exOverride : SchemaOverride where
  className := some (bytes "Animal")
  fieldNames := [(bytes "id", bytes "key")]
  typeMapping :=
    [(bytes "integer", bytes "std::map<int, int>"), (bytes "string:date", bytes "Date")]
  useJsonKey := some true

theorem mem_exOverride {p : Bytes × Bytes} (h : p ∈ exOverride.typeMapping) :
    p = (bytes "integer", bytes "std::map<int, int>") ∨ p = (bytes "string:date", bytes "Date") :=
  (List.mem_cons.mp h).imp_right List.mem_singleton.mp

theorem legible_exOverride : Legible (bytes "Pet") exOverride := by
  refine ⟨by decide, fun n h => ?_, by decide, fun p hp => ?_, fun p hp => ?_, fun p hp => ?_⟩
  · cases h
    exact ⟨by decide, by decide, by decide⟩
  · rw [List.mem_singleton.mp hp]
    exact ⟨by decide, by decide⟩
  · rcases mem_exOverride hp with rfl | rfl
    all_goals exact ⟨⟨⟨by decide, by decide⟩, by decide, by decide⟩, by decide⟩
  · rcases mem_exOverride hp with rfl | rfl
    all_goals exact ⟨by decide, by decide⟩

theorem read_of_toOption {t : Bytes} {c : Config} (h : (Config.read t).toOption = some c) :
    Config.read t = .ok c := by
  cases r : Config.read t with
  | error e =>
    rw [r] at h
    exact nomatch h
  | ok c' =>
    rw [r] at h
    exact congrArg Except.ok (Option.some.inj h)

theorem settings_eq_of_fingerprint_exPets : ∃ c c',
    Config.read (exText [] exPets) = .ok c ∧
    Config.read (exText [(bytes "outputDir", .str "out")] exPets) = .ok c' ∧ c ≠ c' ∧
    c.fingerprint Style.plain.name = c'.fingerprint Style.plain.name ∧
    (∀ o, o ∈ c.schemas → Legible o.1 o.2) ∧ (∀ o, o ∈ c'.schemas → Legible o.1 o.2) ∧
    c.targetNamespace = c'.targetNamespace ∧ c.generateDocs = c'.generateDocs ∧
    c.useJsonKey = c'.useJsonKey ∧ c.modelSettings = c'.modelSettings := by
  have read : Config.read (exText [] exPets) =
      .ok { standard with schemas := [(bytes "Pet", exOverride)] } :=
    read_of_toOption (by decide +kernel)
  have read' : Config.read (exText [(bytes "outputDir", .str "out")] exPets) =
      .ok { standard with outputDir := bytes "out", schemas := [(bytes "Pet", exOverride)] } :=
    read_of_toOption (by decide +kernel)
  have legible : ∀ o, o ∈ [(bytes "Pet", exOverride)] → Legible o.1 o.2 :=
    List.forall_mem_singleton.mpr legible_exOverride
  have same : ({ standard with schemas := [(bytes "Pet", exOverride)] } : Config).fingerprint
      Style.plain.name = Config.fingerprint { standard with
        outputDir := bytes "out", schemas := [(bytes "Pet", exOverride)] } Style.plain.name := rfl
  obtain ⟨-, namespace_, docs, useJsonKey, others⟩ := settings_eq_of_fingerprint read read' same
  exact ⟨_, _, read, read', by decide, same, legible, legible, namespace_, docs, useJsonKey,
    others legible legible⟩

section

variable {β : Type} [DecidableEq β]

/-- Whether two overrides for pets have the same fingerprint, and lead to the same choice. -/
def exCompared (choice : ModelSettings → Bytes → β) (pets pets' : List (Bytes × Node)) :
    Option (Bool × Bool) :=
  match Config.read (exText [] pets), Config.read (exText [] pets') with
  | .ok c, .ok c' =>
    some (c.fingerprint Style.plain.name = c'.fingerprint Style.plain.name,
      choice c.modelSettings "Pet" = choice c'.modelSettings "Pet")
  | _, _ => none

theorem not_separates_of_exCompared {choice : ModelSettings → Bytes → β}
    (pets pets' : List (Bytes × Node)) (h : exCompared choice pets pets' = some (true, false)) :
    ¬ Separates choice := by
  intro separates
  unfold exCompared at h
  split at h
  · next c c' read read' =>
    simp only [Option.some.injEq, Prod.mk.injEq, decide_eq_true_eq, decide_eq_false_iff_not] at h
    exact h.2 (separates _ _ _ _ _ _ read read' h.1 _)
  · exact nomatch h

end

/-- A fingerprint does not tell apart a class name that is empty and one that is not given, a type
by the name of the setting for JSON keys and that setting, and an identifier or a type with the
marks of a second entry and these two entries. -/
theorem not_separates :
    ¬ Separates ModelSettings.className ∧ ¬ Separates ModelSettings.usesJsonKey ∧
      ¬ Separates (fun m name => Build.fieldName (m.override? name) (bytes "b")) ∧
      ¬ Separates (fun m name => (m.override? name).map SchemaOverride.typeMapping) := by
  refine ⟨not_separates_of_exCompared [(bytes "className", .str [])] [] ?_,
    not_separates_of_exCompared [(bytes "typeMapping", .obj [(bytes "json_key", .str "1")])]
      [(bytes "useJsonKey", .bool true)] ?_,
    not_separates_of_exCompared [(bytes "fieldNames", .obj [(bytes "a", .str "x,b>y")])]
      [(bytes "fieldNames", .obj [(bytes "a", .str "x"), (bytes "b", .str "y")])] ?_,
    not_separates_of_exCompared [(bytes "typeMapping", .obj [(bytes "integer", .str "x,number=y")])]
      [(bytes "typeMapping", .obj [(bytes "integer", .str "x"), (bytes "number", .str "y")])] ?_⟩
  all_goals decide +kernel

end Config

end HeaderForge
