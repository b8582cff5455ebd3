import HeaderForge.Proofs.Build.Classes
import HeaderForge.Proofs.Build.Containment
import HeaderForge.Proofs.Build.Flattening
/-!
# Which fields are required

A composition gathers fields from many fragments, each with a list of the keys that it requires.
Only fields are merged, so a key counts where the fragment that requires it has a property for it: a
fragment that requires a key it does not declare adds no field, and its demand is lost.

1. `Field.Requires` says that fields require a key, and `requires_merge` that merging loses nothing.
2. `Index.Traverses.mem_fragments_iff`: a traversal meets the fragments that a schema is composed
   of, each of them and no others, even though it expands every name only once.
3. `Build.required_iff_demanded` is the result, for every field of every class.
-/

namespace HeaderForge

/-! ## Merging -/

namespace Field

/-- One of the fields has the key and is required. -/
def Requires (fields : List Field) (key : Bytes) : Prop :=
  ∃ f, f ∈ fields ∧ f.key = key ∧ f.required = true

theorem requires_cons {f : Field} {rest : List Field} {key : Bytes} :
    Requires (f :: rest) key ↔ (f.key = key ∧ f.required = true) ∨ Requires rest key := by
  simp only [Requires, List.mem_cons, or_and_right, exists_or, exists_eq_left]

/-- The later field is required as before, in its own place or in that of an earlier one. -/
theorem requires_mergeOne {f : Field} {fields : List Field} {key : Bytes} :
    Requires (mergeOne f fields) key ↔
      Requires fields key ∨ (f.key = key ∧ f.required = true) := by
  induction fields with
  | nil => simp [mergeOne, Requires]
  | cons first rest ih =>
    rw [mergeOne]
    split
    · next same =>
      have merged : (first.overriddenBy f).key = key ∧ (first.overriddenBy f).required = true ↔
          (first.key = key ∧ first.required = true) ∨ (f.key = key ∧ f.required = true) := by
        simp only [overriddenBy, Bool.or_eq_true, and_or_left, same]
      rw [requires_cons, requires_cons, merged, or_right_comm]
    · rw [requires_cons, requires_cons, ih, or_assoc]

theorem requires_merge {fields later : List Field} {key : Bytes} :
    Requires (merge fields later) key ↔ Requires fields key ∨ Requires later key := by
  unfold merge
  induction later generalizing fields with
  | nil => simp [Requires]
  | cons f rest ih => rw [List.foldl_cons, ih, requires_mergeOne, requires_cons, or_assoc]

theorem requires_foldl_merge {outs : List (List Field)} {fields : List Field} {key : Bytes} :
    Requires (outs.foldl merge fields) key ↔
      Requires fields key ∨ ∃ out, out ∈ outs ∧ Requires out key := by
  induction outs generalizing fields with
  | nil => simp
  | cons out rest ih =>
    rw [List.foldl_cons, ih, requires_merge, or_assoc]
    simp only [List.mem_cons, or_and_right, exists_or, exists_eq_left]

/-- Where no two fields have the same key, a field is required if its key is. -/
theorem required_iff_requires {fields : List Field} (distinct : (fields.map Field.key).Nodup)
    {f : Field} (member : f ∈ fields) : f.required = true ↔ Requires fields f.key := by
  constructor
  · exact fun required => ⟨f, member, rfl, required⟩
  · rintro ⟨g, there, same, required⟩
    rwa [List.inj_on_of_nodup_map distinct there member same] at required

end Field

/-! ## What a traversal meets -/

/-- The fragment has a property for the key and requires it. -/
def Fragment.Demands (fragment : Fragment) (key : Bytes) : Prop :=
  key ∈ fragment.properties.map Prod.fst ∧ key ∈ fragment.required

theorem Schema.mem_parts_of_member {info : SchemaInfo} {members : List Schema} {member : Schema}
    (here : member ∈ members) (path : List Nat) :
    ∃ path', ∀ part, part ∈ member.parts path' → part ∈ (allOf info members).parts path := by
  have among : ∀ n, ∃ path', ∀ part, part ∈ member.parts path' →
      part ∈ partsOfMembers path n members := by
    induction members with
    | nil => exact nomatch here
    | cons first rest ih =>
      intro n
      rw [partsOfMembers]
      rcases List.mem_cons.mp here with rfl | later
      · exact ⟨path ++ [n], fun part hp => List.mem_append_left _ hp⟩
      · obtain ⟨path', inside⟩ := ih later (n + 1)
        exact ⟨path', fun part hp => List.mem_append_right _ (inside part hp)⟩
  rw [parts]
  exact among 0

namespace Index

open Meeting

variable {index : Index} {opened visited : List Bytes} {ps : List (Site × Schema)}
  {ms : List Meeting}

/-- A part of a schema adds what the schema adds. -/
theorem composes_of_mem_parts {s : Schema} {path : List Nat} {part : List Nat × Schema}
    {fragment : Fragment} (here : part ∈ s.parts path) (composes : index.Composes part.2 fragment) :
    index.Composes s fragment := by
  revert here
  refine Schema.parts_induction
    (fun path s => part ∈ s.parts path → index.Composes s fragment)
    (fun path n members => part ∈ Schema.partsOfMembers path n members →
      ∃ member, member ∈ members ∧ index.Composes member fragment)
    ⟨?allOf, ?single, ?none, ?more⟩ path s
  case allOf =>
    intro path info members ih here
    rw [Schema.parts] at here
    obtain ⟨member, there, adds⟩ := ih here
    exact .member there adds
  case single =>
    intro path s single here
    rw [Schema.parts] at here
    · cases List.mem_singleton.mp here
      exact composes
    · exact single
  case none =>
    intro path n here
    cases here
  case more =>
    intro path n member rest ih others here
    rw [Schema.partsOfMembers] at here
    rcases List.mem_append.mp here with first | later
    · exact ⟨member, List.mem_cons_self, ih first⟩
    · obtain ⟨other, there, adds⟩ := others later
      exact ⟨other, List.mem_cons_of_mem _ there, adds⟩

theorem composes_of_fragment? {s : Schema} {fragment : Fragment}
    (found : s.fragment? = some fragment) : index.Composes s fragment := by
  cases s with
  | object =>
    cases found
    exact .object
  | primitive | enumeration | reference | array | allOf | union => exact nomatch found

theorem composes_of_token? {s : Schema} {token : Bytes} {target : NamedSchema}
    {fragment : Fragment} (found : s.token? = some token)
    (resolved : index.resolve? token = some target)
    (composes : index.Composes target.schema fragment) : index.Composes s fragment := by
  cases s with
  | reference =>
    cases found
    exact .reference resolved composes
  | primitive | enumeration | object | array | allOf | union => exact nomatch found

/-- Whatever is met is added by one of the parts. -/
theorem Traverses.composes_of_mem (way : index.Traverses opened visited ps ms) :
    ∀ fragment, fragment ∈ fragments ms → ∃ p, p ∈ ps ∧ index.Composes p.2 fragment := by
  have behind : ∀ {first : Site × Schema} {rest : List (Site × Schema)} {fragment : Fragment},
      (∃ p, p ∈ rest ∧ index.Composes p.2 fragment) →
      ∃ p, p ∈ first :: rest ∧ index.Composes p.2 fragment :=
    fun ⟨p, there, adds⟩ => ⟨p, List.mem_cons_of_mem _ there, adds⟩
  induction way with
  | done => exact fun _ here => nomatch here
  | fragment found _ ih =>
    intro fragment here
    rcases List.mem_cons.mp here with rfl | later
    · exact ⟨_, List.mem_cons_self, composes_of_fragment? found⟩
    · exact behind (ih fragment later)
  | @first _ _ _ _ _ target _ inner later isToken resolved _ _ _ ihInner ih =>
    intro fragment here
    have split : fragment ∈ fragments inner ++ fragments later := by
      rw [← fragments_append]
      exact here
    rcases List.mem_append.mp split with inside | after
    · obtain ⟨p, placed, adds⟩ := ihInner fragment inside
      obtain ⟨part, there, rfl⟩ := List.mem_map.mp placed
      exact ⟨_, List.mem_cons_self,
        composes_of_token? isToken resolved (composes_of_mem_parts there adds)⟩
    · exact behind (ih fragment after)
  | again _ _ _ _ ih => exact fun fragment here => behind (ih fragment here)
  | nothing _ _ _ ih => exact fun fragment here => behind (ih fragment here)

/-- A part is covered if its fragment is met, and the name that it refers to is known. -/
structure Covers (index : Index) (met : List Fragment) (known : Bytes → Prop) (part : Schema) :
    Prop where
  fragment : ∀ fragment, part.fragment? = some fragment → fragment ∈ met
  name : ∀ token target, part.token? = some token → index.resolve? token = some target →
    known target.name

theorem Covers.mono {met met' : List Fragment} {known known' : Bytes → Prop} {part : Schema}
    (h : index.Covers met known part) (more : met ⊆ met') (wider : ∀ n, known n → known' n) :
    index.Covers met' known' part :=
  ⟨fun fragment found => more (h.fragment fragment found),
    fun token target found resolved => wider _ (h.name token target found resolved)⟩

/-- The parts of every schema of this name are covered. -/
def CoversNamed (index : Index) (met : List Fragment) (known : Bytes → Prop) (name : Bytes) :
    Prop :=
  ∀ target, index.find? name = some target → ∀ p, p ∈ target.placed → index.Covers met known p.2

theorem CoversNamed.mono {met met' : List Fragment} {known known' : Bytes → Prop} {name : Bytes}
    (h : index.CoversNamed met known name) (more : met ⊆ met') (wider : ∀ n, known n → known' n) :
    index.CoversNamed met' known' name :=
  fun target found p placed => (h target found p placed).mono more wider

/-- A name is known to a traversal if it was visited before or is met for the first time. -/
def Known (visited : List Bytes) (ms : List Meeting) (name : Bytes) : Prop :=
  name ∈ visited ∨ name ∈ firsts ms

/-- A traversal covers its parts, and those of every schema that it expands. -/
theorem Traverses.covers (way : index.Traverses opened visited ps ms) :
    (∀ p, p ∈ ps → index.Covers (fragments ms) (Known visited ms) p.2) ∧
      ∀ name, name ∈ firsts ms → index.CoversNamed (fragments ms) (Known visited ms) name := by
  induction way with
  | done => exact ⟨List.forall_mem_nil _, List.forall_mem_nil _⟩
  | @fragment _ visited site part fragment rest later found _ ih =>
    have more : fragments later ⊆ fragments (.fragment site fragment :: later) :=
      List.subset_cons_self _ _
    refine ⟨List.forall_mem_cons.mpr ⟨⟨fun other found' => ?_, fun token target isToken => ?_⟩,
      fun p there => (ih.1 p there).mono more fun _ known => known⟩,
      fun name expanded => (ih.2 name expanded).mono more fun _ known => known⟩
    · cases found.symm.trans found'
      exact List.mem_cons_self
    · rw [no_fragment_of_token isToken] at found
      exact nomatch found
  | @first _ visited _ part token target rest inner later isToken resolved new _ _ ihInner ih =>
    have metInner : fragments inner ⊆ fragments (.first target.name :: inner ++ later) := by
      show _ ⊆ fragments (inner ++ later)
      rw [fragments_append]
      exact List.subset_append_left _ _
    have metLater : fragments later ⊆ fragments (.first target.name :: inner ++ later) := by
      show _ ⊆ fragments (inner ++ later)
      rw [fragments_append]
      exact List.subset_append_right _ _
    have expanded : firsts (.first target.name :: inner ++ later) =
        target.name :: (firsts inner ++ firsts later) := by
      rw [List.cons_append, firsts_first, firsts_append]
    -- Names that are known inside or later are known to the whole traversal.
    have knownInner : ∀ n, Known (target.name :: visited) inner n →
        Known visited (.first target.name :: inner ++ later) n := by
      intro n known
      unfold Known at known ⊢
      simp only [expanded, List.mem_cons, List.mem_append] at known ⊢
      tauto
    have knownLater : ∀ n, Known ((firsts inner).reverse ++ target.name :: visited) later n →
        Known visited (.first target.name :: inner ++ later) n := by
      intro n known
      unfold Known at known ⊢
      simp only [expanded, List.mem_cons, List.mem_append, List.mem_reverse] at known ⊢
      tauto
    refine ⟨List.forall_mem_cons.mpr ⟨⟨fun fragment found => ?_, fun token' target' found' leads => ?_⟩,
      fun p there => (ih.1 p there).mono metLater knownLater⟩, fun name here => ?_⟩
    · rw [no_fragment_of_token isToken] at found
      exact nomatch found
    · cases isToken.symm.trans found'
      cases resolved.symm.trans leads
      exact .inr (expanded ▸ List.mem_cons_self)
    · rw [expanded] at here
      rcases List.mem_cons.mp here with rfl | here
      · intro other found p placed
        cases (find?_of_resolve? resolved).2.symm.trans found
        exact (ihInner.1 p placed).mono metInner knownInner
      · rcases List.mem_append.mp here with inside | after
        · exact (ihInner.2 name inside).mono metInner knownInner
        · exact (ih.2 name after).mono metLater knownLater
  | @again _ visited _ part token target rest later isToken resolved seen _ ih =>
    refine ⟨List.forall_mem_cons.mpr ⟨⟨fun fragment found => ?_, fun token' target' found' leads => ?_⟩,
      ih.1⟩, ih.2⟩
    · rw [no_fragment_of_token isToken] at found
      exact nomatch found
    · cases isToken.symm.trans found'
      cases resolved.symm.trans leads
      exact .inl seen
  | @nothing _ _ _ part _ _ noFragment noToken _ ih =>
    refine ⟨List.forall_mem_cons.mpr ⟨⟨fun fragment found => ?_, fun token target found _ => ?_⟩,
      ih.1⟩, ih.2⟩
    · exact nomatch noFragment.symm.trans found
    · exact nomatch noToken.symm.trans found

/-- Where all known names are covered, so is whatever a covered schema is composed of. -/
theorem Composes.mem_of_covers {met : List Fragment} {known : Bytes → Prop}
    (covered : ∀ name, known name → index.CoversNamed met known name) {s : Schema}
    {fragment : Fragment} (composes : index.Composes s fragment) :
    ∀ path, (∀ part, part ∈ s.parts path → index.Covers met known part.2) → fragment ∈ met := by
  induction composes with
  | object =>
    intro path parts
    exact (parts _ (List.mem_singleton_self _)).fragment _ rfl
  | member here _ ih =>
    intro path parts
    obtain ⟨path', inside⟩ := Schema.mem_parts_of_member here path
    exact ih path' fun part there => parts part (inside part there)
  | @reference info token target fragment resolved _ ih =>
    intro path parts
    have knows := (parts _ (List.mem_singleton_self _)).name token target rfl resolved
    refine ih [] fun part there => ?_
    exact covered _ knows target (find?_of_resolve? resolved).2 (place target.name part)
      (List.mem_map_of_mem there)

/-- The traversal of a schema meets what the schema is composed of. -/
theorem Traverses.mem_fragments_iff {s : NamedSchema} (declared : index.find? s.name = some s)
    (way : index.Traverses [s.name] [s.name] s.placed ms) {fragment : Fragment} :
    fragment ∈ fragments ms ↔ index.Composes s.schema fragment := by
  constructor
  · intro here
    obtain ⟨p, placed, adds⟩ := way.composes_of_mem fragment here
    obtain ⟨part, there, rfl⟩ := List.mem_map.mp placed
    exact composes_of_mem_parts there adds
  · intro composes
    obtain ⟨own, expanded⟩ := way.covers
    -- The name that is open from the start is the one of the schema itself.
    have covered : ∀ name, Known [s.name] ms name →
        index.CoversNamed (fragments ms) (Known [s.name] ms) name := by
      rintro name (before | first)
      · intro target found p placed
        rw [List.mem_singleton.mp before, declared] at found
        cases found
        exact own p placed
      · exact expanded name first
    refine composes.mem_of_covers covered [] fun part there => ?_
    exact own (place s.name part) (List.mem_map_of_mem there)

end Index

/-! ## Reading fragments -/

namespace Build

open Meeting

variable {index : Index} {settings : ModelSettings} {s : NamedSchema}

/-- The fields of a fragment require what the fragment demands. -/
theorem makes_readFragment_requires (owner : Bytes) (fragment : Fragment) :
    Makes (fun _ => True) (readFragment index settings owner fragment) fun fields =>
      ∀ key, Field.Requires fields key ↔ fragment.Demands key := by
  have read : ∀ properties, Makes (fun _ => True)
      (fieldsOf (typeContext index settings owner) (settings.override? owner) fragment.required
        properties) fun fields => ∀ key, Field.Requires fields key ↔
          key ∈ properties.map Prod.fst ∧ key ∈ fragment.required := by
    intro properties
    induction properties with
    | nil => exact Makes.pure fun key => by simp [Field.Requires]
    | cons property rest ih =>
      rw [fieldsOf]
      refine (makes_typeOf owner property.1 property.2 fun _ _ _ => trivial).bind fun t _ => ?_
      refine ih.bind fun others all => Makes.pure fun key => ?_
      rw [Field.requires_cons, all key, List.contains_iff_mem, List.map_cons, List.mem_cons,
        or_and_right]
      refine or_congr_left ⟨?_, ?_⟩
      · rintro ⟨rfl, required⟩
        exact ⟨rfl, required⟩
      · rintro ⟨rfl, required⟩
        exact ⟨rfl, required⟩
  refine (read _).mono fun fields all key => ?_
  rw [all key, ((Bytes.sortKeys_perm fragment.properties).map Prod.fst).mem_iff]
  rfl

/-- What is read requires a key if one of the fragments demands it. -/
theorem Reads.requires_iff {st t : BuildState} {fs : List Fragment} {outs : List (List Field)}
    {owner : Bytes} (reads : Reads (readFragment index settings owner) st fs outs t)
    (key : Bytes) : (∃ out, out ∈ outs ∧ Field.Requires out key) ↔
      ∃ fragment, fragment ∈ fs ∧ fragment.Demands key := by
  induction reads with
  | done => simp
  | call _ run _ ih =>
    have same := (makes_readFragment_requires owner _ _ _ _ run).2 key
    simp only [List.mem_cons, or_and_right, exists_or, exists_eq_left, ih, same]

/-! ## Open names -/

/-- Whether the step returns or fails, the same names are open after it. -/
def Restores {α : Type} (m : Build α) : Prop := ∀ st, (exec m st).2.stack = st.stack

namespace Restores

variable {α β : Type}

theorem pure (a : α) : Restores (pure a) := fun _ => rfl

theorem throw (e : FailureKind) : Restores (throw e : Build α) := fun _ => rfl

theorem report (d : Diagnostic) : Restores (report d) := fun _ => rfl

theorem write (line : LogLine) : Restores (write line) := fun _ => rfl

theorem bind {m : Build α} {f : α → Build β} (first : Restores m)
    (second : ∀ a, Restores (f a)) : Restores (m >>= f) := by
  intro st
  have stack := first st
  rw [exec_bind]
  rcases run : exec m st with ⟨e | a, t⟩
  · rwa [run] at stack
  · rw [run] at stack
    exact (second a t).trans stack

end Restores

theorem restores_resolve (index : Index) (token subject : Bytes) :
    Restores (resolve index token subject) := by
  unfold resolve
  split
  · exact .pure _
  · exact (Restores.report _).bind fun _ => .throw _

theorem restores_typeOf (c : TypeContext) (key : Bytes) (s : Schema) :
    Restores (typeOf c key s) := by
  induction s using typeOf.induct with
  | case1 info token =>
    simp only [typeOf]
    unfold referenceType
    refine (restores_resolve _ _ _).bind fun target => ?_
    have noting : ∀ d t, Restores (do
        modify fun s : BuildState => { s with dependencies := addDependency d s.dependencies }
        return (t : TypeRef)) := fun _ _ => Restores.bind (fun _ => rfl) fun _ => .pure _
    dsimp only
    split
    · exact (Restores.write _).bind fun _ => noting _ _
    · exact noting _ _
  | case3 info values =>
    simp only [typeOf]
    unfold enumerationType inlineEnumName
    refine Restores.bind ?_ fun _ => Restores.bind (fun _ => rfl) fun _ => .pure _
    dsimp only
    split
    · exact .pure _
    · exact (Restores.write _).bind fun _ => .pure _
  | case5 info items ih =>
    simp only [typeOf]
    exact ih.bind fun _ => .pure _
  | case7 info required extra ih =>
    simp only [typeOf]
    exact ih.bind fun _ => .pure _
  | case9 info head tail required extra =>
    simp only [typeOf]
    exact (Restores.write _).bind fun _ => .pure _
  | case10 info member ih =>
    simp only [typeOf]
    exact ih
  | case11 info members several =>
    rw [typeOf]
    · exact .pure _
    · exact several
  | case2 | case4 | case6 | case8 | case12 =>
    simp only [typeOf]
    exact .pure _

theorem restores_readFragment (owner : Bytes) (fragment : Fragment) :
    Restores (readFragment index settings owner fragment) := by
  unfold readFragment
  induction Bytes.sortKeys fragment.properties with
  | nil => exact .pure _
  | cons property rest ih =>
    rw [fieldsOf]
    exact (restores_typeOf _ _ _).bind fun _ => ih.bind fun _ => .pure _

/-! ## Required fields -/

/-- What holds of all records that are merged from what is read along the traversal of a schema holds
of the record of this schema. -/
theorem gives_buildRecord_of_reads {Q : ClassModel → BuildState → Prop} {st : BuildState}
    (alone : st.stack = [s.name])
    (record : ∀ meetings outs ancestors after, index.Traverses [s.name] [s.name] s.placed meetings →
      Reads (readFragment index settings s.name) st (fragments meetings) outs after →
      ((outs.foldl Field.merge []).map Field.key).Nodup →
      Q { outline settings s .record with
          fields := outs.foldl Field.merge [], composedFrom := ancestors } after) :
    Gives (buildRecord index settings s) st Q := by
  unfold buildRecord
  refine (Gives.run (flatten index s.schema s.name (readFragment index settings s.name)) st).bind
    fun found t run => Gives.pure ?_
  obtain ⟨meetings, outs, way, reads, fields, -⟩ :=
    gives_flatten_alone (restores_readFragment s.name) alone found t run
  have distinct := (makes_flatten mergeable_fieldOf
    (fun _ composes => makes_readFragment composes) st found t run).2.keys
  rw [fields] at distinct ⊢
  exact record meetings outs _ t way reads distinct

/-- A field is required if some fragment of the schema demands its key. -/
def Demanded (index : Index) (s : NamedSchema) (fields : List Field) : Prop :=
  ∀ f, f ∈ fields → (f.required = true ↔
    ∃ fragment, index.Composes s.schema fragment ∧ fragment.Demands f.key)

theorem gives_buildRecord_demanded (declared : index.find? s.name = some s) {st : BuildState}
    (alone : st.stack = [s.name]) :
    Gives (buildRecord index settings s) st fun c _ => Demanded index s c.fields := by
  refine gives_buildRecord_of_reads alone fun meetings outs _ _ way reads distinct => ?_
  intro f member
  rw [Field.required_iff_requires distinct member, Field.requires_foldl_merge,
    reads.requires_iff f.key]
  simp only [way.mem_fragments_iff declared]
  exact or_iff_right fun ⟨_, empty, _⟩ => nomatch empty

/-- A class that is no record has no fields. -/
structure NoRecord (c : ClassModel) : Prop where
  shape_ne : c.shape ≠ .record
  fields : c.fields = []

theorem noRecord_buildAlias : Returns NoRecord (buildAlias index settings s) :=
  Returns.bind fun _ => Returns.pure ⟨nofun, rfl⟩

theorem noRecord_buildUnion (kind : UnionKind) (members : List Schema)
    (discriminator : Option Discriminator) :
    Returns NoRecord (buildUnion index settings s kind members discriminator) := by
  refine Returns.bind fun plan => ?_
  dsimp only
  split
  · split
    · exact Returns.bind fun _ => Returns.pure ⟨nofun, rfl⟩
    · exact Returns.bind fun _ => Returns.pure ⟨nofun, rfl⟩
  · exact Returns.pure ⟨nofun, rfl⟩

/-- A record or an alias is built from a state that the way to it has not changed but for findings
and the log. -/
theorem gives_buildShape_of {Q : ClassModel → BuildState → Prop} {st : BuildState}
    (enumeration : ∀ values, Q (buildEnumeration settings s values) st)
    (record : ∀ t, Silent st t → Gives (buildRecord index settings s) t Q)
    (alias_ : ∀ t, Silent st t → Gives (buildAlias index settings s) t Q)
    (union : ∀ info kind members discriminator, s.schema = .union info kind members discriminator →
      Gives (buildUnion index settings s kind members discriminator) st Q) :
    Gives (buildShape index settings s) st Q := by
  have still := Silent.refl st
  unfold buildShape
  split
  · exact Gives.pure (enumeration _)
  · split
    · exact record st still
    · exact alias_ st still
  · split
    · exact record st still
    · exact alias_ st still
  · unfold buildReference
    obtain ⟨u, silent, followed⟩ : ∃ u, Silent st u ∧
        exec (followFrom index s.name maxHops s) st = (chainEnd index maxHops s, u) :=
      exec_followFrom maxHops s st
    refine (Gives.run (follow index s s.name) st).bind fun target t run => ?_
    obtain rfl : u = t := congrArg Prod.snd (followed.symm.trans run)
    split
    · exact gives_after_write fun v silent' => record v (silent.trans silent')
    · exact alias_ u silent
  · next schema => exact union _ _ _ _ schema
  · exact alias_ st still
  · exact alias_ st still

/-- What holds of records, however they come to be built, and of all classes that are no records
holds of every shape. -/
theorem gives_buildShape_of_record {Q : ClassModel → BuildState → Prop} {st : BuildState}
    (record : ∀ t, t.stack = st.stack → t.inlineEnums = st.inlineEnums →
      Gives (buildRecord index settings s) t Q)
    (other : ∀ c t, NoRecord c → Q c t) : Gives (buildShape index settings s) st Q := by
  have plain : ∀ {m : Build ClassModel}, Returns NoRecord m → ∀ t, Gives m t Q :=
    fun returns t c u run => other c u (returns t c (by unfold exec; rw [run]))
  refine gives_buildShape_of (fun _ => other _ _ ⟨nofun, rfl⟩)
    (fun t silent => record t silent.stack silent.inlineEnums)
    (fun t _ => plain noRecord_buildAlias t) fun _ _ _ _ _ => plain (noRecord_buildUnion _ _ _) st

theorem gives_buildShape_demanded (declared : index.find? s.name = some s) {st : BuildState}
    (alone : st.stack = [s.name]) :
    Gives (buildShape index settings s) st fun c _ => Demanded index s c.fields := by
  refine gives_buildShape_of_record
    (fun t stack _ => gives_buildRecord_demanded declared (stack.trans alone)) fun c _ noRecord => ?_
  unfold Demanded
  rw [noRecord.fields]
  exact List.forall_mem_nil _

/-- A field of a class is required exactly if one of the fragments that its schema is composed of
declares its key and requires it, wherever in the composition the fragment stands. -/
theorem required_iff_demanded (declared : index.find? s.name = some s) {st after : BuildState}
    (closed : st.stack = []) {c : ClassModel}
    (built : exec (buildClass index settings s) st = (.ok c, after)) :
    ∀ f, f ∈ c.fields → (f.required = true ↔
      ∃ fragment, index.Composes s.schema fragment ∧ fragment.Demands f.key) := by
  obtain ⟨shape, u, run, rfl⟩ := exists_shape_of_buildClass closed (congrArg Prod.fst built)
  intro f member
  obtain ⟨g, there, same⟩ := of_mem_renamed member
  rw [same]
  exact gives_buildShape_demanded declared rfl shape u run g there

/-- Two schemas tighten the same base. The strict one declares the key again that it requires, and
the loose one does not. -/
def exStrict : NamedSchema where
  name := bytes "Strict"
  schema := .allOf exInfo [exLink (bytes "Base"),
    .object exInfo [(bytes "id", .primitive exInfo)] [bytes "id"] .closed]

def exLoose : NamedSchema where
  name := bytes "Loose"
  schema := .allOf exInfo [exLink (bytes "Base"), .object exInfo [] [bytes "id"] .closed]

def exTightened : Index where
  dialect := .openapi3
  version := bytes "3"
  named := [exStrict, exLoose, ⟨bytes "Base",
    .object exInfo [(bytes "id", .primitive exInfo), (bytes "tag", .primitive exInfo)]
      [bytes "tag"] .closed⟩]

/-- The keys of a class, each with whether it is required. -/
def exRequired (c : ClassModel) : List (Bytes × Bool) := c.fields.map fun f => (f.key, f.required)

theorem required_iff_demanded_exStrict :
    ∃ c after, exec (buildClass exTightened ⟨false, []⟩ exStrict) start = (.ok c, after) ∧
      exRequired c = [(bytes "id", true), (bytes "tag", true)] ∧
      ∀ f, f ∈ c.fields → (f.required = true ↔
        ∃ fragment, exTightened.Composes exStrict.schema fragment ∧ fragment.Demands f.key) := by
  have facts : (exec (buildClass exTightened ⟨false, []⟩ exStrict) start).1.toOption.map exRequired =
      some [(bytes "id", true), (bytes "tag", true)] := by
    decide +kernel
  obtain ⟨c, after, run, told⟩ := ok_of_exec_map facts
  exact ⟨c, after, run, told, required_iff_demanded rfl rfl run⟩

/-- It is not enough that a fragment requires the key. -/
theorem not_required_of_listed : ¬ ∀ (index : Index) (settings : ModelSettings) (s : NamedSchema)
    (c : ClassModel) (after : BuildState), index.find? s.name = some s →
    exec (buildClass index settings s) start = (.ok c, after) → c.shape = .record →
    ∀ f, f ∈ c.fields → (f.required = true ↔
      ∃ fragment, index.Composes s.schema fragment ∧ f.key ∈ fragment.required) := by
  intro all
  have facts : (exec (buildClass exTightened ⟨false, []⟩ exLoose) start).1.toOption.map
      (fun c => (c.shape, exRequired c)) =
        some (.record, [(bytes "id", false), (bytes "tag", true)]) := by
    decide +kernel
  obtain ⟨c, after, run, told⟩ := ok_of_exec_map facts
  obtain ⟨shape, flags⟩ := Prod.mk.inj told
  have listed : (bytes "id", false) ∈ exRequired c := by
    rw [flags]
    exact List.mem_cons_self
  obtain ⟨f, member, same⟩ := List.mem_map.mp listed
  obtain ⟨key, optional⟩ := Prod.mk.inj same
  have required := (all exTightened ⟨false, []⟩ exLoose c after rfl run shape f member).mpr
    ⟨⟨exInfo, [], [bytes "id"], .closed⟩,
      .member (List.mem_cons_of_mem _ List.mem_cons_self) .object, key ▸ List.mem_cons_self⟩
  rw [optional] at required
  exact nomatch required

end Build

end HeaderForge
