import HeaderForge.Proofs.Build.FieldOrigins
import HeaderForge.Proofs.Schema.Keys
/-!
# The last property of a key

A record is seen in two ways. Its fields are merged from left to right, and the last property that
is read for a key gives the field its type. The tag of a union is read from a single property, which
is searched from the last part to the first one. Both pass over schemas that they have seen. A schema
that occurs twice therefore stands at its first place for the fields, and at its last place for the
search.

1. `Index.finds_append_iff` and `Finds.parts`: the search in terms of the parts of a traversal.
2. `Index.Answers` says what a search may come to after the meetings of a traversal, and
   `Traverses.answers` that this is so.
3. `succeeds_findProperty`: where every reference resolves, the search returns.
4. `findProperty_last` is the result, and `not_findProperty_last` is why it has a condition.
-/

namespace HeaderForge

open Meeting (fragments)

namespace Index

variable {index : Index} {key : Bytes} {opened visited : List Bytes}

/-! ## The search in parts -/

/-- The later parts matter where the first ones do not lead to the property. -/
theorem finds_append_iff {first parts : List Schema} {found : Option Schema} :
    Finds index key opened (first ++ parts) found ↔
      (∃ property, found = some property ∧ Finds index key opened first (some property)) ∨
        Finds index key opened first none ∧ Finds index key opened parts found := by
  constructor
  · intro h
    generalize whole : first ++ parts = all at h
    induction h generalizing first with
    | nothing =>
      obtain ⟨rfl, rfl⟩ := List.append_eq_nil_iff.mp whole
      exact .inr ⟨.nothing, .nothing⟩
    | declared here =>
      rcases List.append_eq_cons_iff.mp whole with ⟨rfl, rfl⟩ | ⟨first, rfl, rfl⟩
      · exact .inr ⟨.nothing, .declared here⟩
      · exact .inl ⟨_, rfl, .declared here⟩
    | missing gone later ih =>
      rcases List.append_eq_cons_iff.mp whole with ⟨rfl, rfl⟩ | ⟨first, rfl, rfl⟩
      · exact .inr ⟨.nothing, .missing gone later⟩
      · exact (ih rfl).imp (fun ⟨p, same, h⟩ => ⟨p, same, .missing gone h⟩)
          fun ⟨miss, h⟩ => ⟨.missing gone miss, h⟩
    | members inner ih =>
      rcases List.append_eq_cons_iff.mp whole with ⟨rfl, rfl⟩ | ⟨first, rfl, rfl⟩
      · exact .inr ⟨.nothing, .members inner⟩
      · exact (ih (List.append_assoc _ _ _)).imp (fun ⟨p, same, h⟩ => ⟨p, same, .members h⟩)
          fun ⟨miss, h⟩ => ⟨.members miss, h⟩
    | inside resolved new inner =>
      rcases List.append_eq_cons_iff.mp whole with ⟨rfl, rfl⟩ | ⟨first, rfl, rfl⟩
      · exact .inr ⟨.nothing, .inside resolved new inner⟩
      · exact .inl ⟨_, rfl, .inside resolved new inner⟩
    | outside resolved new inner later _ ih =>
      rcases List.append_eq_cons_iff.mp whole with ⟨rfl, rfl⟩ | ⟨first, rfl, rfl⟩
      · exact .inr ⟨.nothing, .outside resolved new inner later⟩
      · exact (ih rfl).imp (fun ⟨p, same, h⟩ => ⟨p, same, .outside resolved new inner h⟩)
          fun ⟨miss, h⟩ => ⟨.outside resolved new inner miss, h⟩
    | reopened resolved old later ih =>
      rcases List.append_eq_cons_iff.mp whole with ⟨rfl, rfl⟩ | ⟨first, rfl, rfl⟩
      · exact .inr ⟨.nothing, .reopened resolved old later⟩
      · exact (ih rfl).imp (fun ⟨p, same, h⟩ => ⟨p, same, .reopened resolved old h⟩)
          fun ⟨miss, h⟩ => ⟨.reopened resolved old miss, h⟩
    | other holds later ih =>
      rcases List.append_eq_cons_iff.mp whole with ⟨rfl, rfl⟩ | ⟨first, rfl, rfl⟩
      · exact .inr ⟨.nothing, .other holds later⟩
      · exact (ih rfl).imp (fun ⟨p, same, h⟩ => ⟨p, same, .other holds h⟩)
          fun ⟨miss, h⟩ => ⟨.other holds miss, h⟩
  · -- The derivation for the first parts is repeated with the later ones behind them.
    have extend : ∀ r, Finds index key opened first r →
        (r = none → Finds index key opened parts found) → (∀ p, r = some p → found = some p) →
        Finds index key opened (first ++ parts) found := by
      intro r h
      induction h with
      | nothing => exact fun miss _ => miss rfl
      | declared here => exact fun _ hit => hit _ rfl ▸ .declared here
      | missing gone _ ih => exact fun miss hit => .missing gone (ih miss hit)
      | members _ ih =>
        exact fun miss hit => .members (List.append_assoc _ _ _ ▸ ih miss hit)
      | inside resolved new inner => exact fun _ hit => hit _ rfl ▸ .inside resolved new inner
      | outside resolved new inner _ _ ih =>
        exact fun miss hit => .outside resolved new inner (ih miss hit)
      | reopened resolved old _ ih => exact fun miss hit => .reopened resolved old (ih miss hit)
      | other holds _ ih => exact fun miss hit => .other holds (ih miss hit)
    rintro (⟨property, rfl, hit⟩ | ⟨miss, later⟩)
    · exact extend _ hit (fun none => nomatch none) fun p same => same
    · exact extend _ miss (fun _ => later) fun p none => nomatch none

/-- A schema is searched like its parts, the last one first. -/
theorem Finds.parts {s : Schema} {rest : List Schema} {found : Option Schema} (path : List Nat)
    (h : Finds index key opened (s :: rest) found) :
    Finds index key opened (((s.parts path).map Prod.snd).reverse ++ rest) found := by
  refine Schema.parts_induction
    (fun path s => ∀ rest found, Finds index key opened (s :: rest) found →
      Finds index key opened (((s.parts path).map Prod.snd).reverse ++ rest) found)
    (fun path n members => ∀ rest found, Finds index key opened (members.reverse ++ rest) found →
      Finds index key opened
        (((Schema.partsOfMembers path n members).map Prod.snd).reverse ++ rest) found)
    ⟨?allOf, ?single, ?none, ?more⟩ path s rest found h
  case allOf =>
    intro path info members ih rest found h
    rw [Schema.parts]
    cases h with
    | members inner => exact ih rest found inner
    | other holds => cases holds
  case single =>
    intro path s single rest found h
    rw [Schema.parts]
    · exact h
    · exact single
  case none =>
    intro path n rest found h
    exact h
  case more =>
    intro path n member others ihMember ih rest found h
    rw [List.reverse_cons, List.append_assoc] at h
    rw [Schema.partsOfMembers, List.map_append, List.reverse_append, List.append_assoc]
    have taken := ih _ found h
    rw [finds_append_iff] at taken ⊢
    exact taken.imp_right fun missed => ⟨missed.1, ihMember rest found missed.2⟩

/-- What is found is a property of a fragment that one of the parts is composed of. -/
theorem Finds.composes {parts : List Schema} {found : Option Schema}
    (h : Finds index key opened parts found) : ∀ property, found = some property →
      ∃ part, part ∈ parts ∧ ∃ fragment, index.Composes part fragment ∧
        fragment.properties.lookup key = some property := by
  have behind : ∀ {first : Schema} {rest : List Schema} {property : Schema},
      (∃ part, part ∈ rest ∧ ∃ fragment, index.Composes part fragment ∧
        fragment.properties.lookup key = some property) →
      ∃ part, part ∈ first :: rest ∧ ∃ fragment, index.Composes part fragment ∧
        fragment.properties.lookup key = some property :=
    fun ⟨part, there, adds⟩ => ⟨part, List.mem_cons_of_mem _ there, adds⟩
  induction h with
  | nothing => exact fun _ none => nomatch none
  | declared here =>
    intro property same
    cases same
    exact ⟨_, List.mem_cons_self, _, .object, here⟩
  | missing _ _ ih => exact fun property same => behind (ih property same)
  | members _ ih =>
    intro property same
    obtain ⟨part, there, fragment, composes, here⟩ := ih property same
    rcases List.mem_append.mp there with inside | later
    · exact ⟨_, List.mem_cons_self, fragment, .member (List.mem_reverse.mp inside) composes, here⟩
    · exact behind ⟨part, later, fragment, composes, here⟩
  | inside resolved _ _ ih =>
    intro property same
    obtain ⟨part, there, fragment, composes, here⟩ := ih property same
    cases List.mem_singleton.mp there
    exact ⟨_, List.mem_cons_self, fragment, .reference resolved composes, here⟩
  | outside _ _ _ _ _ ih => exact fun property same => behind (ih property same)
  | reopened _ _ _ ih => exact fun property same => behind (ih property same)
  | other _ _ ih => exact fun property same => behind (ih property same)

/-! ## What a search may come to -/

/-- No fragment that is met declares the key. -/
def Undeclared (key : Bytes) (ms : List Meeting) : Prop :=
  ∀ fragment, fragment ∈ fragments ms → fragment.properties.lookup key = none

/-- Wherever a schema of this name is searched, nothing else than the property is found. -/
def LeadsOnlyTo (index : Index) (key : Bytes) (property : Schema) (name : Bytes) : Prop :=
  ∀ target, index.find? name = some target → ∀ opened other,
    index.Finds key (name :: opened) [target.schema] (some other) → other = property

/-- A schema that is met again leads to nothing else, unless it is still open and is passed over. -/
def Harmless (index : Index) (key : Bytes) (property : Schema) (ms : List Meeting) : Prop :=
  ∀ name, .again name false ∈ ms → index.LeadsOnlyTo key property name

/-- The property is declared last, and what is met after it is harmless. -/
def DeclaredLast (index : Index) (key : Bytes) (property : Schema) (ms : List Meeting) : Prop :=
  ∃ before site fragment after, ms = before ++ .fragment site fragment :: after ∧
    fragment.properties.lookup key = some property ∧ Undeclared key after ∧
    index.Harmless key property after

/-- What a search from the last part on may come to. -/
structure Answers (index : Index) (key : Bytes) (ms : List Meeting) (found : Option Schema) :
    Prop where
  missing : found = none → Undeclared key ms
  nothing_else : ∀ property, Undeclared key ms → index.Harmless key property ms →
    ∀ other, found = some other → other = property
  last : ∀ property, index.DeclaredLast key property ms → found = some property

variable {first later : List Meeting} {found : Option Schema}

theorem undeclared_append_iff :
    Undeclared key (first ++ later) ↔ Undeclared key first ∧ Undeclared key later := by
  unfold Undeclared
  rw [Meeting.fragments_append, List.forall_mem_append]

theorem harmless_append_iff {property : Schema} : index.Harmless key property (first ++ later) ↔
    index.Harmless key property first ∧ index.Harmless key property later := by
  simp only [Harmless, List.mem_append, or_imp, forall_and]

theorem DeclaredLast.split {property : Schema}
    (h : index.DeclaredLast key property (first ++ later)) :
    index.DeclaredLast key property later ∨
      index.DeclaredLast key property first ∧ Undeclared key later ∧
        index.Harmless key property later := by
  obtain ⟨before, site, fragment, after, whole, here, undeclared, harmless⟩ := h
  rcases List.append_eq_append_iff.mp whole with ⟨more, -, rest⟩ | ⟨more, rfl, rest⟩
  · exact .inl ⟨more, site, fragment, after, rest, here, undeclared, harmless⟩
  · rcases List.append_eq_cons_iff.mp rest.symm with ⟨rfl, rfl⟩ | ⟨after', rfl, rfl⟩
    · exact .inl ⟨[], site, fragment, after, rfl, here, undeclared, harmless⟩
    · rw [undeclared_append_iff] at undeclared
      rw [harmless_append_iff] at harmless
      exact .inr ⟨⟨before, site, fragment, after', rfl, here, undeclared.1, harmless.1⟩,
        undeclared.2, harmless.2⟩

/-- A search that has found the property takes no more parts. -/
theorem Answers.append_of_hit {property : Schema}
    (h : index.Answers key later (some property)) :
    index.Answers key (first ++ later) (some property) := by
  refine ⟨fun gone => (nomatch gone), fun p undeclared harmless => ?_, fun p last => ?_⟩
  · exact h.nothing_else p (undeclared_append_iff.mp undeclared).2 (harmless_append_iff.mp harmless).2
  · rcases last.split with last | ⟨-, undeclared, harmless⟩
    · exact h.last p last
    · rw [h.nothing_else p undeclared harmless property rfl]

/-- A search that has not found it goes on with the parts before. -/
theorem Answers.append_of_miss (h : index.Answers key later none)
    (h' : index.Answers key first found) : index.Answers key (first ++ later) found := by
  refine ⟨fun gone => undeclared_append_iff.mpr ⟨h'.missing gone, h.missing rfl⟩,
    fun p undeclared harmless => ?_, fun p last => ?_⟩
  · exact h'.nothing_else p (undeclared_append_iff.mp undeclared).1 (harmless_append_iff.mp harmless).1
  · rcases last.split with last | ⟨last, -⟩
    · exact nomatch h.last p last
    · exact h'.last p last

/-- Where no fragment is met, nothing may be found. -/
theorem answers_none {ms : List Meeting} (bare : fragments ms = []) :
    index.Answers key ms none := by
  refine ⟨fun _ fragment there => ?_, fun _ _ _ _ none => (nomatch none), fun _ last => ?_⟩
  · rw [bare] at there
    exact nomatch there
  · obtain ⟨before, site, fragment, after, rfl, -⟩ := last
    rw [Meeting.fragments_append] at bare
    exact nomatch (List.append_eq_nil_iff.mp bare).2

/-- A fragment answers with its property. -/
theorem answers_fragment (site : Site) (fragment : Fragment) :
    index.Answers key [.fragment site fragment] (fragment.properties.lookup key) := by
  refine ⟨fun gone other there => ?_, fun p undeclared _ q here => ?_, fun p last => ?_⟩
  · cases List.mem_singleton.mp there
    exact gone
  · rw [undeclared fragment List.mem_cons_self] at here
    exact nomatch here
  · obtain ⟨before, site', fragment', after, whole, here, -⟩ := last
    rcases List.append_eq_cons_iff.mp whole.symm with ⟨-, same⟩ | ⟨_, -, none⟩
    · cases same
      exact here
    · simp at none

/-- A name that is met for the first time answers with what is found inside. -/
theorem Answers.cons_first {name : Bytes} (h : index.Answers key later found) :
    index.Answers key (.first name :: later) found := by
  cases found with
  | none =>
    have passed : index.Answers key ([.first name] ++ later) none :=
      h.append_of_miss (answers_none rfl)
    exact passed
  | some property =>
    have found : index.Answers key ([.first name] ++ later) (some property) := h.append_of_hit
    exact found

/-- A name that is met again answers with what a search of it comes to. -/
theorem answers_again {target : NamedSchema} {property : Schema}
    (declared : index.find? target.name = some target)
    (inner : Finds index key (target.name :: opened) [target.schema] (some property)) :
    index.Answers key [.again target.name false] (some property) := by
  refine ⟨fun gone => (nomatch gone), fun p _ harmless q same => ?_, fun p last => ?_⟩
  · cases same
    exact harmless target.name List.mem_cons_self target declared opened property inner
  · obtain ⟨before, site, fragment, after, whole, -⟩ := last
    have there : .fragment site fragment ∈ [Meeting.again target.name false] :=
      whole ▸ List.mem_append_right _ List.mem_cons_self
    exact nomatch List.mem_singleton.mp there

/-! ## Traversals -/

/-- Parts of which none is a composition. -/
def Single (ps : List (Site × Schema)) : Prop :=
  ∀ p, p ∈ ps → ∀ info members, p.2 ≠ .allOf info members

theorem single_placed (s : NamedSchema) : Single s.placed := by
  have parts : ∀ path s part, part ∈ Schema.parts path s →
      ∀ info members, part.2 ≠ .allOf info members := by
    intro path s part
    refine Schema.parts_induction
      (fun path s => part ∈ s.parts path → ∀ info members, part.2 ≠ .allOf info members)
      (fun path n members => part ∈ Schema.partsOfMembers path n members →
        ∀ info members, part.2 ≠ .allOf info members)
      ⟨?allOf, ?single, ?none, ?more⟩ path s
    case allOf =>
      intro path info members ih here
      rw [Schema.parts] at here
      exact ih here
    case single =>
      intro path s single here
      rw [Schema.parts] at here
      · cases List.mem_singleton.mp here
        exact single
      · exact single
    case none =>
      intro path n here
      cases here
    case more =>
      intro path n member rest ih others here
      rw [Schema.partsOfMembers] at here
      exact (List.mem_append.mp here).elim ih others
  intro p placed
  obtain ⟨part, there, rfl⟩ := List.mem_map.mp placed
  exact parts [] s.schema part there

/-- The schemas of parts in the order in which they are searched. -/
def searchOrder (ps : List (Site × Schema)) : List Schema := (ps.map Prod.snd).reverse

/-- A named schema is searched like its parts. -/
theorem Finds.placed {s : NamedSchema} (h : Finds index key opened [s.schema] found) :
    Finds index key opened (searchOrder s.placed) found := by
  have taken := h.parts []
  rw [List.append_nil] at taken
  unfold searchOrder NamedSchema.placed
  rwa [List.map_map]

theorem lookup_of_finds {part : Schema} {fragment : Fragment}
    (isFragment : part.fragment? = some fragment)
    (finds : Finds index key opened [part] found) : found = fragment.properties.lookup key := by
  cases part with
  | object =>
    cases isFragment
    cases finds with
    | declared here => exact here.symm
    | missing gone later =>
      cases later
      exact gone.symm
    | other holds => exact nomatch holds
  | primitive | enumeration | reference | array | allOf | union => exact nomatch isFragment

/-- A reference is passed over while its target is open, and leads into it otherwise. -/
theorem finds_target {part : Schema} {token : Bytes} {target : NamedSchema}
    (isToken : part.token? = some token) (resolved : index.resolve? token = some target)
    (finds : Finds index key opened [part] found) :
    (target.name ∈ opened ∧ found = none) ∨
      target.name ∉ opened ∧ Finds index key (target.name :: opened) [target.schema] found := by
  cases part with
  | reference =>
    cases isToken
    cases finds with
    | inside resolved' new inner =>
      cases resolved.symm.trans resolved'
      exact .inr ⟨new, inner⟩
    | outside resolved' new inner later =>
      cases resolved.symm.trans resolved'
      cases later
      exact .inr ⟨new, inner⟩
    | reopened resolved' old later =>
      cases resolved.symm.trans resolved'
      cases later
      exact .inl ⟨old, rfl⟩
    | other holds => exact nomatch holds
  | primitive | enumeration | object | array | allOf | union => exact nomatch isToken

theorem none_of_finds {part : Schema} (noFragment : part.fragment? = none)
    (noToken : part.token? = none) (single : ∀ info members, part ≠ .allOf info members)
    (finds : Finds index key opened [part] found) : found = none := by
  cases part with
  | object => exact nomatch noFragment
  | reference => exact nomatch noToken
  | allOf info members => exact absurd rfl (single info members)
  | primitive | enumeration | array | union =>
    cases finds with
    | other _ later =>
      cases later
      rfl

/-- The first part is searched after all others. -/
theorem answers_cons (first : List Meeting) {p : Site × Schema} {rest : List (Site × Schema)}
    (finds : Finds index key opened (searchOrder (p :: rest)) found)
    (others : ∀ r, Finds index key opened (searchOrder rest) r → index.Answers key later r)
    (own : ∀ r, Finds index key opened [p.2] r → index.Answers key first r) :
    index.Answers key (first ++ later) found := by
  unfold searchOrder at finds others
  rw [List.map_cons, List.reverse_cons, finds_append_iff] at finds
  rcases finds with ⟨property, rfl, hit⟩ | ⟨miss, hit⟩
  · exact (others _ hit).append_of_hit
  · exact (others _ miss).append_of_miss (own _ hit)

/-- A search of the parts from the last one on answers for the traversal from the first one on. -/
theorem Traverses.answers {ps : List (Site × Schema)} {ms : List Meeting}
    (way : index.Traverses opened visited ps ms) (known : opened ⊆ visited) (single : Single ps)
    {found : Option Schema} (finds : Finds index key opened (searchOrder ps) found) :
    index.Answers key ms found := by
  -- Both ways open the same names, so that only a name that is met again and is not open is searched
  -- where it is not expanded.
  induction way generalizing found with
  | done =>
    cases finds
    exact answers_none rfl
  | @fragment _ _ site part fragment rest later isFragment _ ih =>
    refine answers_cons [.fragment site fragment] finds
      (fun r h => ih known (List.forall_mem_cons.mp single).2 h) fun r h => ?_
    rw [lookup_of_finds isFragment h]
    exact answers_fragment site fragment
  | @first opened visited site part token target rest inner later isToken resolved new _ _
      ihInner ih =>
    refine answers_cons (.first target.name :: inner) finds
      (fun r h => ih (fun n isOpen => ?_) (List.forall_mem_cons.mp single).2 h) fun r h => ?_
    · exact List.mem_append_right _ (List.mem_cons_of_mem _ (known isOpen))
    · have deeper := (finds_target isToken resolved h).resolve_left fun ⟨old, _⟩ => new (known old)
      exact (ihInner (List.cons_subset_cons _ known) (single_placed target)
        deeper.2.placed).cons_first
  | @again opened _ _ part token target rest later isToken resolved seen _ ih =>
    refine answers_cons [.again target.name (target.name ∈ opened)] finds
      (fun r h => ih known (List.forall_mem_cons.mp single).2 h) fun r h => ?_
    rcases finds_target isToken resolved h with ⟨-, rfl⟩ | ⟨new, inner⟩
    · exact answers_none rfl
    · cases r with
      | none => exact answers_none rfl
      | some property =>
        rw [decide_eq_false new]
        exact answers_again (find?_of_resolve? resolved).2 inner
  | nothing noFragment noToken _ ih =>
    obtain ⟨own, others⟩ := List.forall_mem_cons.mp single
    refine answers_cons [] finds (fun r h => ih known others h) fun r h => ?_
    rw [none_of_finds noFragment noToken own h]
    exact answers_none rfl

/-! ## The last fragment -/

theorem Composes.keys_nodup {s : Schema} {fragment : Fragment} (distinct : index.DistinctKeys)
    (composes : index.Composes s fragment) :
    s.DistinctKeys → (fragment.properties.map Prod.fst).Nodup := by
  induction composes with
  | object => exact Schema.DistinctKeys.keys
  | member here _ ih => exact fun own => ih (own.members _ here)
  | reference resolved _ ih =>
    exact fun _ => ih (distinct _ (List.mem_of_find?_eq_some (find?_of_resolve? resolved).2))

/-- What is read last for a key stands in the last fragment that declares the key. -/
theorem exists_last_of_lookup {ms : List Meeting} {property : Schema}
    (distinct : ∀ fragment, fragment ∈ fragments ms → (fragment.properties.map Prod.fst).Nodup)
    (last : (Meeting.properties ms).reverse.lookup key = some property) :
    ∃ before site fragment after, ms = before ++ .fragment site fragment :: after ∧
      fragment.properties.lookup key = some property ∧ Undeclared key after := by
  induction ms with
  | nil => exact nomatch last
  | cons m later ih =>
    have behind : (Meeting.properties later).reverse.lookup key = some property →
        (∀ fragment, fragment ∈ fragments later → (fragment.properties.map Prod.fst).Nodup) →
        ∃ before site fragment after, m :: later = before ++ .fragment site fragment :: after ∧
          fragment.properties.lookup key = some property ∧ Undeclared key after := by
      intro last distinct
      obtain ⟨before, site, fragment, after, rfl, here, undeclared⟩ := ih distinct last
      exact ⟨m :: before, site, fragment, after, rfl, here, undeclared⟩
    cases m with
    | first | again => exact behind last distinct
    | fragment site fragment =>
      obtain ⟨own, others⟩ := List.forall_mem_cons.mp distinct
      have whole : Meeting.properties (.fragment site fragment :: later) =
          Bytes.sortKeys fragment.properties ++ Meeting.properties later := rfl
      rw [whole, List.reverse_append, List.lookup_append] at last
      cases after : (Meeting.properties later).reverse.lookup key with
      | some q => exact behind (by rwa [after] at last ⊢) others
      | none =>
        rw [after, Option.none_or] at last
        have perm := (List.reverse_perm _).trans (Bytes.sortKeys_perm fragment.properties)
        refine ⟨[], site, fragment, later, rfl, ?_, fun f there => ?_⟩
        · rw [← last]
          exact lookup_perm perm.symm own key
        · refine lookup_eq_none fun here => ?_
          obtain ⟨p, present, same⟩ := List.mem_map.mp here
          rw [List.lookup_eq_none_iff] at after
          have := after p (List.mem_reverse.mpr (Meeting.mem_properties.mpr ⟨f, there, present⟩))
          exact bne_iff_ne.mp this same.symm

end Index

namespace Build

open Index (Inside Undeclared Harmless)

variable {index : Index} {settings : ModelSettings} {owner key : Bytes} {s : NamedSchema}

/-! ## The search returns -/

/-- The step does not fail. -/
def Succeeds {α : Type} (m : Build α) : Prop := ∀ st, ∃ a t, exec m st = (.ok a, t)

namespace Succeeds

variable {α β : Type}

theorem pure (a : α) : Succeeds (pure a) := fun st => ⟨a, st, rfl⟩

theorem bind {m : Build α} {f : α → Build β} (first : Succeeds m) (next : ∀ a, Succeeds (f a)) :
    Succeeds (m >>= f) := by
  intro st
  obtain ⟨a, t, run⟩ := first st
  rw [exec_bind, run]
  exact next a t

theorem resolve_bind {token : Bytes} {target : NamedSchema} {f : NamedSchema → Build β}
    (resolved : index.resolve? token = some target) (next : Succeeds (f target)) :
    Succeeds (resolve index token owner >>= f) := by
  unfold resolve
  rw [resolved]
  exact next

end Succeeds

theorem succeeds_findIn {enter : NamedSchema → List Bytes → Build (Option Schema × List Bytes)}
    (enters : ∀ target seen, index.find? target.name = some target →
      Succeeds (enter target seen)) (s : Schema) (seen : List Bytes)
    (inside : Inside index index index.names s) :
    Succeeds (findIn ⟨index, owner, enter, none⟩ key s seen) := by
  refine findIn.induct
    (fun s seen => Inside index index index.names s →
      Succeeds (findIn ⟨index, owner, enter, none⟩ key s seen))
    (fun members seen => (∀ m, m ∈ members → Inside index index index.names m) →
      Succeeds (findInLast ⟨index, owner, enter, none⟩ key members seen))
    ?reference ?object ?allOf ?other ?none ?more s seen inside
  case reference =>
    intro info token seen inside
    rw [findIn]
    obtain ⟨m, rfl, -, target, -, resolved, -⟩ := inside.meets
    refine Succeeds.resolve_bind resolved ?_
    unfold searchNamed
    split
    · exact .pure _
    · exact enters target _ (Index.find?_of_resolve? resolved).2
  case object =>
    intro info properties required extra seen _
    rw [findIn]
    exact .pure _
  case allOf =>
    intro info members seen ih inside
    rw [findIn]
    exact ih fun m here => inside.member here
  case other =>
    intro s seen noReference noObject noAllOf _
    rw [findIn]
    · exact .pure _
    all_goals assumption
  case none =>
    intro seen _
    rw [findInLast]
    exact .pure _
  case more =>
    intro s rest seen others ih inside
    obtain ⟨own, later⟩ := List.forall_mem_cons.mp inside
    rw [findInLast]
    refine (others later).bind fun found => ?_
    obtain ⟨found, seen'⟩ := found
    cases found with
    | some property => exact .pure _
    | none => exact ih seen' own

theorem succeeds_findWithin (resolved : index.Resolved) (bound : Nat) (s : Schema)
    (seen : List Bytes) (inside : Inside index index index.names s) :
    Succeeds (findWithin index owner key bound s seen) := by
  induction bound generalizing s seen with
  | zero => exact .pure _
  | succ bound ih =>
    rw [findWithin]
    exact succeeds_findIn (fun target seen declared => ih target.schema seen
      (.of_resolved resolved (List.mem_of_find?_eq_some declared))) s seen inside

/-- Where all tokens resolve, the search for a property returns. -/
theorem succeeds_findProperty (resolved : index.Resolved) (member : s ∈ index.named)
    (key owner : Bytes) : Succeeds (findProperty index s key owner) := by
  unfold findProperty
  exact (succeeds_findWithin resolved _ _ _ (.of_resolved resolved member)).bind fun _ => .pure _

/-! ## The result -/

/-- After a check that succeeds, the search for a property of a record returns. It finds nothing
where the record has no field with the key. The property of the last fragment that declares the key
gives its field the type, and this property is found, unless a schema that is met again after that
fragment leads to another one. -/
theorem findProperty_last (distinct : index.DistinctKeys) {unchecked checked : BuildState}
    (check : exec (checkAll index) unchecked = (.ok (), checked))
    (declared : index.find? s.name = some s) {st after : BuildState} (closed : st.stack = [])
    {c : ClassModel} (built : exec (buildClass index settings s) st = (.ok c, after))
    (record : c.shape = .record) (key owner : Bytes) (now : BuildState) :
    ∃ found next, exec (findProperty index s key owner) now = (.ok found, next) ∧
      (found = none ↔ ∀ f, f ∈ c.fields → f.key ≠ key) ∧
      ∀ f, f ∈ c.fields → f.key = key → ∃ before site fragment after p,
        index.Traverses [s.name] [s.name] s.placed (before ++ .fragment site fragment :: after) ∧
        fragment.properties.lookup key = some p ∧ Undeclared key after ∧
        GivesType index settings s.name key p f.type ∧
        (index.Harmless key p after → found = some p) := by
  obtain ⟨resolved, -⟩ := resolved_of_checkAll check
  obtain ⟨found, next, run⟩ := succeeds_findProperty resolved
    (List.mem_of_find?_eq_some declared) key owner now
  obtain ⟨meetings, of⟩ := recordOf_buildClass closed built record
  have finds := (makes_findProperty (P := fun _ => True) s now found next run).2
  have answers := of.traversal.answers (List.Subset.refl _) (Index.single_placed s) finds.placed
  refine ⟨found, next, run, ⟨fun none f member same => ?_, fun noField => ?_⟩, fun f member same => ?_⟩
  · subst same
    obtain ⟨fragment, met, there⟩ := (of.exists_field_iff f.key).mp ⟨f, member, rfl⟩
    obtain ⟨p, here, same⟩ := List.mem_map.mp there
    have gone := List.lookup_eq_none_iff.mp (answers.missing none fragment met) p here
    exact bne_iff_ne.mp gone same.symm
  · cases found with
    | none => rfl
    | some p =>
      obtain ⟨part, there, fragment, composes, here⟩ := finds.composes p rfl
      cases List.mem_singleton.mp there
      obtain ⟨front, back, split, -⟩ := List.lookup_eq_some_iff.mp here
      have met := (of.traversal.mem_fragments_iff declared).mpr composes
      obtain ⟨f, member, same⟩ := (of.exists_field_iff key).mpr
        ⟨fragment, met, List.mem_map.mpr ⟨(key, p), by simp [split], rfl⟩⟩
      exact absurd same (noField f member)
  · subst same
    obtain ⟨p, last, gives⟩ := of.lookup_field member
    have apart : ∀ fragment, fragment ∈ fragments meetings →
        (fragment.properties.map Prod.fst).Nodup := fun fragment met =>
      ((of.traversal.mem_fragments_iff declared).mp met).keys_nodup distinct
        (distinct s (List.mem_of_find?_eq_some declared))
    obtain ⟨before, site, fragment, behind, rfl, here, undeclared⟩ :=
      Index.exists_last_of_lookup apart last
    exact ⟨before, site, fragment, behind, p, of.traversal, here, undeclared, gives,
      fun harmless => answers.last p
        ⟨before, site, fragment, behind, rfl, here, undeclared, harmless⟩⟩

/-! ## A fork and a repeated member -/

/-- Two members lead to the same root. -/
def exFork : NamedSchema where
  name := bytes "Fork"
  schema := .allOf exInfo [exLink (bytes "Left"), exLink (bytes "Right")]

def exProng (name key : Bytes) : NamedSchema :=
  ⟨name, .allOf exInfo [exLink (bytes "Root"), exObject key]⟩

def exLeft : NamedSchema := exProng (bytes "Left") (bytes "left")

def exRight : NamedSchema := exProng (bytes "Right") (bytes "right")

def exRoot : NamedSchema := ⟨bytes "Root", exObject (bytes "id")⟩

def exForked : Index where
  dialect := .openapi3
  version := bytes "3"
  named := [exFork, exLeft, exRight, exRoot]

/-- The fragment of an object with this key. -/
def exPiece (key : Bytes) : Fragment := ⟨exInfo, [(key, .primitive exInfo)], [], .closed⟩

def exForkMeetings : List Meeting :=
  [.first exLeft.name, .first exRoot.name, .fragment ⟨exRoot.name, []⟩ (exPiece (bytes "id")),
    .fragment ⟨exLeft.name, [1]⟩ (exPiece (bytes "left")), .first exRight.name,
    .again exRoot.name false, .fragment ⟨exRight.name, [1]⟩ (exPiece (bytes "right"))]

theorem traverses_exFork :
    exForked.Traverses [exFork.name] [exFork.name] exFork.placed exForkMeetings := by
  have newLeft : exLeft.name ∉ [exFork.name] := by decide
  have newRoot : exRoot.name ∉ [exLeft.name, exFork.name] := by decide
  have newRight : exRight.name ∉ [exRoot.name, exLeft.name, exFork.name] := by decide
  have inLeft : exForked.Traverses [exLeft.name, exFork.name] [exLeft.name, exFork.name]
      exLeft.placed
      [.first exRoot.name, .fragment ⟨exRoot.name, []⟩ (exPiece (bytes "id")),
        .fragment ⟨exLeft.name, [1]⟩ (exPiece (bytes "left"))] :=
    .first rfl rfl newRoot (.fragment rfl .done) (.fragment rfl .done)
  have inRight : exForked.Traverses [exRight.name, exFork.name]
      [exRight.name, exRoot.name, exLeft.name, exFork.name] exRight.placed
      [.again exRoot.name (exRoot.name ∈ [exRight.name, exFork.name]),
        .fragment ⟨exRight.name, [1]⟩ (exPiece (bytes "right"))] :=
    .again rfl rfl (by decide) (.fragment rfl .done)
  exact .first rfl rfl newLeft inLeft (.first rfl rfl newRight inRight .done)

/-- The root is an object of its own, and leads to its property alone. -/
theorem leadsOnlyTo_exRoot :
    exForked.LeadsOnlyTo (bytes "id") (.primitive exInfo) exRoot.name := by
  intro target declared opened other finds
  have same : exForked.find? exRoot.name = some exRoot := rfl
  cases same.symm.trans declared
  have here : some other = (exPiece (bytes "id")).properties.lookup (bytes "id") :=
    Index.lookup_of_finds rfl finds
  exact Option.some.inj here

theorem distinctKeys_exForked : exForked.DistinctKeys := by
  have object : ∀ key, (exObject key).DistinctKeys := fun key =>
    .object _ _ (List.nodup_singleton key)
      (fun p here => List.mem_singleton.mp here ▸ .primitive exInfo) fun _ same => nomatch same
  have prong : ∀ name key, (exProng name key).schema.DistinctKeys := fun name key =>
    .allOf _ (List.forall_mem_cons.mpr ⟨.reference _ _, List.forall_mem_singleton.mpr (object key)⟩)
  have fork : exFork.schema.DistinctKeys :=
    .allOf _ (List.forall_mem_cons.mpr
      ⟨.reference _ _, List.forall_mem_singleton.mpr (.reference _ _)⟩)
  intro s member
  simp only [exForked, List.mem_cons, List.not_mem_nil, or_false] at member
  rcases member with rfl | rfl | rfl | rfl
  · exact fork
  · exact prong _ _
  · exact prong _ _
  · exact object _

theorem findProperty_last_exFork :
    exec (checkAll exForked) start = (.ok (), start) ∧
      ∃ c after, exec (buildClass exForked ⟨false, []⟩ exFork) start = (.ok c, after) ∧
        c.shape = .record ∧ c.fields.map Field.key = [bytes "id", bytes "left", bytes "right"] ∧
        ∃ next, exec (findProperty exForked exFork (bytes "id") exFork.name) start =
          (.ok (some (.primitive exInfo)), next) := by
  have check : exec (checkAll exForked) start = (.ok (), start) := rfl
  have facts : (exec (buildClass exForked ⟨false, []⟩ exFork) start).1.toOption.map
      (fun c => (c.shape, c.fields.map Field.key)) =
        some (.record, [bytes "id", bytes "left", bytes "right"]) := by
    decide +kernel
  obtain ⟨c, after, run, told⟩ := ok_of_exec_map facts
  obtain ⟨shape, keys⟩ := Prod.mk.inj told
  obtain ⟨f, member, key⟩ : ∃ f, f ∈ c.fields ∧ f.key = bytes "id" :=
    List.mem_map.mp (keys ▸ List.mem_cons_self)
  obtain ⟨found, next, search, -, fields⟩ :=
    findProperty_last distinctKeys_exForked check rfl rfl run shape (bytes "id") exFork.name start
  obtain ⟨before, site, fragment, behind, p, way, here, -, -, last⟩ := fields f member key
  have meetings := traverses_exFork.unique way
  have harmless : exForked.Harmless (bytes "id") (.primitive exInfo) behind := by
    intro name again
    have there : .again name false ∈ exForkMeetings :=
      meetings ▸ List.mem_append_right _ (List.mem_cons_of_mem _ again)
    obtain rfl : name = exRoot.name := by simpa [exForkMeetings] using there
    exact leadsOnlyTo_exRoot
  obtain rfl : p = .primitive exInfo := by
    have there : .fragment site fragment ∈ exForkMeetings :=
      meetings ▸ List.mem_append_right _ List.mem_cons_self
    obtain ⟨key, rfl⟩ : ∃ key, fragment = exPiece key := by
      simp only [exForkMeetings, List.mem_cons, List.not_mem_nil, or_false, reduceCtorEq,
        false_or, Meeting.fragment.injEq] at there
      rcases there with ⟨-, rfl⟩ | ⟨-, rfl⟩ | ⟨-, rfl⟩ <;> exact ⟨_, rfl⟩
    rw [exPiece, lookup_cons_if] at here
    split at here
    · exact (Option.some.inj here).symm
    · exact nomatch here
  rw [last harmless] at search
  exact ⟨check, c, after, run, shape, keys, next, search⟩

/-- The first member is repeated after the second one, which overrides it. -/
def exTwice : NamedSchema where
  name := bytes "Twice"
  schema := .allOf exInfo [exLink (bytes "A"), exLink (bytes "B"), exLink (bytes "A")]

def exKind : Schema := .enumeration exInfo ⟨[⟨bytes "a", true⟩], [], []⟩

def exRepeated : Index where
  dialect := .openapi3
  version := bytes "3"
  named := [exTwice, ⟨bytes "A", .object exInfo [(bytes "kind", exKind)] [] .closed⟩,
    ⟨bytes "B", exObject (bytes "kind")⟩]

/-- Whether the class is a record in which this key may have any value. -/
def exAny (key : Bytes) (c : ClassModel) : Bool :=
  c.shape = .record && c.fields.any fun f =>
    f.key = key && f.type.kind = .any && f.type.args.isEmpty

/-- The field has the type of the second member, and the search finds the property of the first. -/
theorem not_findProperty_last : ¬ ∀ (index : Index) (settings : ModelSettings) (s : NamedSchema)
    (c : ClassModel) (after : BuildState), exec (checkAll index) start = (.ok (), start) →
    index.find? s.name = some s → exec (buildClass index settings s) start = (.ok c, after) →
    c.shape = .record → ∀ key owner found next,
    exec (findProperty index s key owner) start = (.ok found, next) →
    ∀ f, f ∈ c.fields → f.key = key →
      ∃ p, found = some p ∧ GivesType index settings s.name key p f.type := by
  intro all
  have finds : exRepeated.Finds (bytes "kind") [exTwice.name] [exTwice.schema] (some exKind) :=
    .members (.inside rfl (by decide) (.declared rfl))
  have facts : (exec (buildClass exRepeated ⟨false, []⟩ exTwice) start).1.toOption.any
      (exAny (bytes "kind")) = true := by
    decide +kernel
  have returns : (exec (findProperty exRepeated exTwice (bytes "kind") []) start).1.toOption.isSome =
      true := by
    decide +kernel
  rcases run : exec (buildClass exRepeated ⟨false, []⟩ exTwice) start with ⟨e | c, after⟩
  · rw [run] at facts
    exact nomatch facts
  rcases search : exec (findProperty exRepeated exTwice (bytes "kind") []) start
    with ⟨e | found, next⟩
  · rw [search] at returns
    exact nomatch returns
  rw [run] at facts
  simp only [Except.toOption, Option.any_some, exAny, Bool.and_eq_true, decide_eq_true_eq,
    List.any_eq_true, List.isEmpty_iff] at facts
  obtain ⟨shape, f, member, ⟨key, kind⟩, bare⟩ := facts
  obtain ⟨p, same, st, after', gives⟩ :=
    all exRepeated ⟨false, []⟩ exTwice c after rfl rfl run shape _ _ found next search f member key
  -- What is found is an enumeration, so that its type would mention it.
  have found' := (makes_findProperty (P := fun _ => True) exTwice start found next search).2
  obtain rfl : p = exKind := Option.some.inj (same.symm.trans (found'.unique finds))
  have mentions := ((gives_typeOf_declares _ _ _ _ _ gives).mentions _).mpr ⟨_, rfl, rfl⟩
  obtain ⟨own, name, ⟨kind', name', indirect, args⟩⟩ := f
  cases bare
  cases kind
  exact nomatch (TypeRef.mentions_bare_iff.mp mentions).1

end Build

end HeaderForge
