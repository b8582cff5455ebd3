import HeaderForge.Proofs.Build.Composition
import HeaderForge.Proofs.Build.Makes
import HeaderForge.Proofs.Build.Traversal
/-!
# Which schema a property has

The search for a property takes the parts of a schema from the last one to the first, and passes
over every named schema that it has seen. What it finds takes less to say: only the names that are
being searched have to be passed over. A search of a name that is over has found nothing, and so
would every later one.

1. `Index.Finds` is the search that passes over nothing but the names that are being searched.
   `Finds.unique`: it has one result at most.
2. `Index.Barren` schemas lead to no property but through names that were seen, and
   `Finds.cons_of_barren` says that they do not change what is found.
3. `makes_findProperty`: both searches find the same.
-/

namespace HeaderForge

/-- A schema that no property is found through. -/
def Schema.holdsNoProperty : Schema → Bool
  | reference _ _ | object _ _ _ _ | allOf _ _ => false
  | _ => true

namespace Index

/-! ## The search -/

/-- Takes parts in turn until one leads to the property. The members of a composition are taken from
the last one on. A reference is followed to its target, unless that is being searched. -/
inductive Finds (index : Index) (key : Bytes) :
    (opened : List Bytes) → List Schema → Option Schema → Prop
  | nothing {opened : List Bytes} : Finds index key opened [] none
  | declared {opened : List Bytes} {info : SchemaInfo} {properties : List (Bytes × Schema)}
      {required : List Bytes} {extra : Extra Schema} {property : Schema} {rest : List Schema} :
      properties.lookup key = some property →
      Finds index key opened (.object info properties required extra :: rest) (some property)
  | missing {opened : List Bytes} {info : SchemaInfo} {properties : List (Bytes × Schema)}
      {required : List Bytes} {extra : Extra Schema} {rest : List Schema}
      {found : Option Schema} :
      properties.lookup key = none → Finds index key opened rest found →
      Finds index key opened (.object info properties required extra :: rest) found
  | members {opened : List Bytes} {info : SchemaInfo} {members rest : List Schema}
      {found : Option Schema} :
      Finds index key opened (members.reverse ++ rest) found →
      Finds index key opened (.allOf info members :: rest) found
  | inside {opened : List Bytes} {info : SchemaInfo} {token : Bytes} {target : NamedSchema}
      {property : Schema} {rest : List Schema} :
      index.resolve? token = some target → target.name ∉ opened →
      Finds index key (target.name :: opened) [target.schema] (some property) →
      Finds index key opened (.reference info token :: rest) (some property)
  | outside {opened : List Bytes} {info : SchemaInfo} {token : Bytes} {target : NamedSchema}
      {rest : List Schema} {found : Option Schema} :
      index.resolve? token = some target → target.name ∉ opened →
      Finds index key (target.name :: opened) [target.schema] none →
      Finds index key opened rest found →
      Finds index key opened (.reference info token :: rest) found
  | reopened {opened : List Bytes} {info : SchemaInfo} {token : Bytes} {target : NamedSchema}
      {rest : List Schema} {found : Option Schema} :
      index.resolve? token = some target → target.name ∈ opened →
      Finds index key opened rest found →
      Finds index key opened (.reference info token :: rest) found
  | other {opened : List Bytes} {part : Schema} {rest : List Schema} {found : Option Schema} :
      part.holdsNoProperty = true → Finds index key opened rest found →
      Finds index key opened (part :: rest) found

variable {index : Index} {key : Bytes} {opened seen : List Bytes}

theorem Finds.unique {parts : List Schema} {found found' : Option Schema}
    (h : Finds index key opened parts found) (h' : Finds index key opened parts found') :
    found = found' := by
  induction h generalizing found' with
  | nothing =>
    cases h' with
    | nothing => rfl
  | declared here =>
    cases h' with
    | declared here' => exact here.symm.trans here'
    | missing gone => rw [here] at gone; exact nomatch gone
    | other none => exact nomatch none
  | missing gone _ ih =>
    cases h' with
    | declared here => rw [here] at gone; exact nomatch gone
    | missing _ later => exact ih later
    | other none => exact nomatch none
  | members _ ih =>
    cases h' with
    | members inner => exact ih inner
    | other none => exact nomatch none
  | inside resolved new _ ih =>
    cases h' with
    | inside resolved' _ inner =>
      obtain rfl := Option.some.inj (resolved.symm.trans resolved')
      exact ih inner
    | outside resolved' _ inner =>
      obtain rfl := Option.some.inj (resolved.symm.trans resolved')
      exact nomatch ih inner
    | reopened resolved' old =>
      obtain rfl := Option.some.inj (resolved.symm.trans resolved')
      exact absurd old new
    | other none => exact nomatch none
  | outside resolved new _ _ ihInner ih =>
    cases h' with
    | inside resolved' _ inner =>
      obtain rfl := Option.some.inj (resolved.symm.trans resolved')
      exact nomatch ihInner inner
    | outside _ _ _ later => exact ih later
    | reopened resolved' old =>
      obtain rfl := Option.some.inj (resolved.symm.trans resolved')
      exact absurd old new
    | other none => exact nomatch none
  | reopened resolved old _ ih =>
    cases h' with
    | inside resolved' new =>
      obtain rfl := Option.some.inj (resolved.symm.trans resolved')
      exact absurd old new
    | outside resolved' new =>
      obtain rfl := Option.some.inj (resolved.symm.trans resolved')
      exact absurd old new
    | reopened _ _ later => exact ih later
    | other none => exact nomatch none
  | other none _ ih =>
    cases h' with
    | declared | missing | members | inside | outside | reopened => exact nomatch none
    | other _ later => exact ih later

/-! ## Schemas without the property -/

/-- A schema that leads to no property of the key but through names that were seen. -/
inductive Barren (index : Index) (key : Bytes) (seen : List Bytes) : Schema → Prop
  | object {info : SchemaInfo} {properties : List (Bytes × Schema)} {required : List Bytes}
      {extra : Extra Schema} :
      properties.lookup key = none → Barren index key seen (.object info properties required extra)
  | members {info : SchemaInfo} {members : List Schema} :
      (∀ m, m ∈ members → Barren index key seen m) → Barren index key seen (.allOf info members)
  | reference {info : SchemaInfo} {token : Bytes} {target : NamedSchema} :
      index.resolve? token = some target → target.name ∈ seen →
      Barren index key seen (.reference info token)
  | other {part : Schema} : part.holdsNoProperty = true → Barren index key seen part

theorem Barren.mono {seen' : List Bytes} (more : seen ⊆ seen') {part : Schema}
    (h : Barren index key seen part) : Barren index key seen' part := by
  induction h with
  | object gone => exact .object gone
  | members _ ih => exact .members ih
  | reference resolved old => exact .reference resolved (more old)
  | other none => exact .other none

/-- Every name that was seen is being searched, or its schema leads to nothing. -/
structure Settled (index : Index) (key : Bytes) (opened seen : List Bytes) : Prop where
  opened_subset : opened ⊆ seen
  barren : ∀ name, name ∈ seen → name ∉ opened → ∀ s, index.find? name = some s →
    Barren index key seen s.schema

/-- A seen name may be searched again. -/
theorem Settled.reopen (h : Settled index key opened seen) {name : Bytes} (old : name ∈ seen) :
    Settled index key (name :: opened) seen := by
  refine ⟨List.cons_subset.mpr ⟨old, h.opened_subset⟩, fun other there closed => ?_⟩
  exact h.barren other there fun before => closed (List.mem_cons_of_mem _ before)

theorem Settled.open_new (h : Settled index key opened seen) {name : Bytes} :
    Settled index key (name :: opened) (name :: seen) := by
  refine ⟨List.cons_subset_cons _ h.opened_subset, fun other there closed s found => ?_⟩
  have before : other ∈ seen :=
    (List.mem_cons.mp there).resolve_left (List.ne_of_not_mem_cons closed)
  exact (h.barren other before (List.not_mem_of_not_mem_cons closed) s found).mono
    (List.subset_cons_self name seen)

/-- A name whose search is over without a result is closed. -/
theorem Settled.close {target : NamedSchema} (found : index.find? target.name = some target)
    (h : Settled index key (target.name :: opened) seen)
    (barren : Barren index key seen target.schema) : Settled index key opened seen := by
  refine ⟨(List.cons_subset.mp h.opened_subset).2, fun name there closed s found' => ?_⟩
  by_cases same : name = target.name
  · rw [same, found] at found'
    cases found'
    exact barren
  · exact h.barren name there (List.not_mem_cons_of_ne_of_not_mem same closed) s found'

/-- Parts that change nothing one by one change nothing together. -/
theorem Finds.append {first parts : List Schema} {found : Option Schema}
    (each : ∀ m, m ∈ first → ∀ rest, Finds index key opened rest found →
      Finds index key opened (m :: rest) found)
    (h : Finds index key opened parts found) : Finds index key opened (first ++ parts) found := by
  induction first with
  | nil => exact h
  | cons m rest ih =>
    exact each m List.mem_cons_self _ (ih fun m' hm' => each m' (List.mem_cons_of_mem _ hm'))

theorem Finds.cons_of_barren {part : Schema} {parts : List Schema} {found : Option Schema}
    (settled : Settled index key opened seen) (barren : Barren index key seen part)
    (h : Finds index key opened parts found) : Finds index key opened (part :: parts) found := by
  -- A name that is searched again leaves one name less to search. Within the search of one name the
  -- induction is on the schema.
  induction bound : Build.remaining index.names opened using Nat.strongRecOn
    generalizing opened part parts found with
  | ind n deeper =>
    induction barren generalizing parts found with
    | object gone => exact .missing gone h
    | members _ ih =>
      exact .members (Finds.append (fun m hm rest h' => ih m (List.mem_reverse.mp hm) h') h)
    | @reference info token target resolved old =>
      by_cases isOpen : target.name ∈ opened
      · exact .reopened resolved isOpen h
      · obtain ⟨-, declared⟩ := find?_of_resolve? resolved
        have less := Build.remaining_cons_lt (mem_names_of_find? declared) isOpen
        refine .outside resolved isOpen ?_ h
        exact deeper _ (bound ▸ less) (settled.reopen old)
          (settled.barren target.name old isOpen target declared) .nothing rfl
    | other none => exact .other none h

/-- What a search with the names that it has seen returns, told by the parts that it took. -/
structure Searched (index : Index) (key : Bytes) (opened seen : List Bytes) (parts : List Schema)
    (found : Option Schema × List Bytes) : Prop where
  grown : seen ⊆ found.2
  hit : ∀ property, found.1 = some property → ∀ rest,
    Finds index key opened (parts ++ rest) (some property)
  miss : found.1 = none → Settled index key opened found.2 ∧
    ∀ m, m ∈ parts → Barren index key found.2 m

/-- A part that was passed over. -/
theorem Searched.passed {part : Schema} (settled : Settled index key opened seen)
    (barren : Barren index key seen part) :
    Searched index key opened seen [part] (none, seen) := by
  refine ⟨List.Subset.refl _, fun property h => (nomatch h), fun _ => ⟨settled, fun m hm => ?_⟩⟩
  exact List.mem_singleton.mp hm ▸ barren

namespace Searched

variable {parts : List Schema} {found : Option Schema × List Bytes}

theorem of_declared {property : Schema} {info : SchemaInfo} {properties : List (Bytes × Schema)}
    {required : List Bytes} {extra : Extra Schema} (here : properties.lookup key = some property) :
    Searched index key opened seen [.object info properties required extra]
      (some property, seen) := by
  refine ⟨List.Subset.refl _, fun property' same rest => ?_, fun h => nomatch h⟩
  cases same
  exact .declared here

theorem of_members {info : SchemaInfo} {members : List Schema}
    (searched : Searched index key opened seen members.reverse found) :
    Searched index key opened seen [.allOf info members] found := by
  refine ⟨searched.grown, fun property h rest => .members (searched.hit property h rest),
    fun h => ?_⟩
  obtain ⟨settled, barren⟩ := searched.miss h
  refine ⟨settled, fun m hm => ?_⟩
  rw [List.mem_singleton.mp hm]
  exact .members fun m' hm' => barren m' (List.mem_reverse.mpr hm')

/-- A search that has found the property takes no more parts. -/
theorem append_of_hit {property : Schema} {seen' : List Bytes}
    (searched : Searched index key opened seen parts (some property, seen')) (more : List Schema) :
    Searched index key opened seen (parts ++ more) (some property, seen') := by
  refine ⟨searched.grown, fun property' same rest => ?_, fun h => nomatch h⟩
  cases same
  rw [List.append_assoc]
  exact searched.hit property rfl _

/-- A search that has not found it goes on with the names that it has seen. -/
theorem append_of_miss {seen' : List Bytes} {more : List Schema}
    (first : Searched index key opened seen parts (none, seen'))
    (second : Searched index key opened seen' more found) :
    Searched index key opened seen (parts ++ more) found := by
  obtain ⟨settled, barren⟩ := first.miss rfl
  refine ⟨List.Subset.trans first.grown second.grown, fun property h rest => ?_, fun h => ?_⟩
  · rw [List.append_assoc]
    exact Finds.append (fun m hm _ => Finds.cons_of_barren settled (barren m hm))
      (second.hit property h rest)
  · obtain ⟨settled', barren'⟩ := second.miss h
    refine ⟨settled', fun m hm => ?_⟩
    cases List.mem_append.mp hm with
    | inl before => exact (barren m before).mono second.grown
    | inr here => exact barren' m here

end Searched

end Index

/-! ## The keys that are met -/

/-- The keys of the fragments that are met, in order. -/
def Meeting.keys (ms : List Meeting) : List Bytes :=
  (fragments ms).flatMap fun fragment => fragment.properties.map Prod.fst

/-- The keys of the properties of a named schema, each where it is met first. -/
def Index.HasKeys (index : Index) (s : NamedSchema) (keys : List Bytes) : Prop :=
  ∃ ms, index.Traverses [s.name] [s.name] s.placed ms ∧ keys = (Meeting.keys ms).eraseDups

namespace Build

open Index (Settled Barren Finds Searched)

variable {index : Index} {owner key : Bytes} {P : EnumDef → Prop}

/-! ## The search with the names that it has seen -/

section

variable {enter : NamedSchema → List Bytes → Build (Option Schema × List Bytes)} {n : Nat}
  (enters : ∀ target opened seen, Settled index key opened seen →
    remaining index.names seen < n →
    Makes P (enter target seen) (Searched index key opened seen [target.schema]))
include enters

theorem makes_searchNamed {info : SchemaInfo} {token : Bytes} {target : NamedSchema}
    (resolved : index.resolve? token = some target) {opened seen : List Bytes}
    (settled : Settled index key opened seen) (fits : remaining index.names seen ≤ n) :
    Makes P (searchNamed ⟨index, owner, enter, none⟩ target seen)
      (Searched index key opened seen [.reference info token]) := by
  obtain ⟨-, declared⟩ := Index.find?_of_resolve? resolved
  unfold searchNamed
  split
  · next old => exact Makes.pure (.passed settled (.reference resolved old))
  · next new =>
    have less : remaining index.names (target.name :: seen) < n :=
      Nat.lt_of_lt_of_le (remaining_cons_lt (Index.mem_names_of_find? declared) new) fits
    have closed : target.name ∉ opened := fun isOpen => new (settled.opened_subset isOpen)
    refine (enters target (target.name :: opened) _ settled.open_new less).mono
      fun found searched => ⟨?_, fun property h rest => ?_, fun h => ?_⟩
    · exact fun name old => searched.grown (List.mem_cons_of_mem _ old)
    · exact .inside resolved closed (searched.hit property h [])
    · obtain ⟨settled', barren⟩ := searched.miss h
      refine ⟨settled'.close declared (barren _ List.mem_cons_self), fun m hm => ?_⟩
      rw [List.mem_singleton.mp hm]
      exact .reference resolved (searched.grown List.mem_cons_self)

theorem makes_findIn (s : Schema) (seen : List Bytes) {opened : List Bytes}
    (settled : Settled index key opened seen) (fits : remaining index.names seen ≤ n) :
    Makes P (findIn ⟨index, owner, enter, none⟩ key s seen)
      (Searched index key opened seen [s]) := by
  -- The second motive is about members, of which the last one is taken first.
  refine findIn.induct
    (fun s seen => ∀ opened, Settled index key opened seen → remaining index.names seen ≤ n →
      Makes P (findIn ⟨index, owner, enter, none⟩ key s seen)
        (Searched index key opened seen [s]))
    (fun members seen => ∀ opened, Settled index key opened seen →
      remaining index.names seen ≤ n →
      Makes P (findInLast ⟨index, owner, enter, none⟩ key members seen)
        (Searched index key opened seen members.reverse))
    ?reference ?object ?allOf ?other ?none ?more s seen opened settled fits
  case reference =>
    intro info token seen opened settled fits
    rw [findIn]
    exact (makes_resolve index token owner).bind fun target resolved =>
      makes_searchNamed enters resolved settled fits
  case object =>
    intro info properties required extra seen opened settled fits
    rw [findIn]
    refine Makes.pure ?_
    cases here : properties.lookup key with
    | none => exact .passed settled (.object here)
    | some property => exact .of_declared here
  case allOf =>
    intro info members seen ih opened settled fits
    rw [findIn]
    exact (ih opened settled fits).mono fun found searched => searched.of_members
  case other =>
    intro s seen noReference noObject noAllOf opened settled fits
    rw [findIn]
    · refine Makes.pure (.passed settled (.other ?_))
      cases s with
      | reference info token => exact absurd rfl (noReference info token)
      | object info properties required extra =>
        exact absurd rfl (noObject info properties required extra)
      | allOf info members => exact absurd rfl (noAllOf info members)
      | primitive | enumeration | array | union => rfl
    all_goals assumption
  case none =>
    intro seen opened settled fits
    rw [findInLast]
    refine Makes.pure ⟨List.Subset.refl _, fun property h => (by cases h), fun _ => ⟨settled, ?_⟩⟩
    exact fun m hm => by cases hm
  case more =>
    intro s rest seen others ih opened settled fits
    rw [findInLast]
    refine (others opened settled fits).bind fun found searched => ?_
    obtain ⟨found, seen'⟩ := found
    rw [List.reverse_cons]
    cases found with
    | some property => exact Makes.pure (searched.append_of_hit [s])
    | none =>
      have fits' := Nat.le_trans (remaining_mono searched.grown) fits
      exact (ih seen' opened (searched.miss rfl).1 fits').mono fun found searched' =>
        searched.append_of_miss searched'

end

/-- A bound that exceeds the number of names that are left is never reached. -/
theorem makes_findWithin {bound : Nat} (s : Schema) {opened seen : List Bytes}
    (settled : Settled index key opened seen) (left : remaining index.names seen < bound) :
    Makes P (findWithin index owner key bound s seen) (Searched index key opened seen [s]) := by
  induction bound generalizing s opened seen with
  | zero => exact absurd left (Nat.not_lt_zero _)
  | succ bound ih =>
    rw [findWithin]
    exact makes_findIn (fun target opened seen settled less => ih target.schema settled less) s seen
      settled (Nat.le_of_lt_succ left)

/-- The property of a named schema is what is found in it while its own name is being searched. -/
theorem makes_findProperty (s : NamedSchema) :
    Makes P (findProperty index s key owner) (index.Finds key [s.name] [s.schema]) := by
  have settled : Settled index key [s.name] [s.name] :=
    ⟨List.Subset.refl _, fun name there closed => absurd there closed⟩
  have left : remaining index.names [s.name] < index.named.length + 1 := by
    rw [← Index.length_names]
    exact Nat.lt_succ_of_le (remaining_le_length _ _)
  unfold findProperty
  refine (makes_findWithin s.schema settled left).bind fun found searched => Makes.pure ?_
  obtain ⟨found, seen⟩ := found
  cases found with
  | some property => exact searched.hit property rfl []
  | none =>
    obtain ⟨settled', barren⟩ := searched.miss rfl
    exact Finds.cons_of_barren settled' (barren _ List.mem_cons_self) .nothing

/-! ## Keys -/

/-- What a walk that has seen these names returns: the keys that a traversal of the parts meets, and
the names that have been seen after it. Which names are open does not matter. -/
def ListsKeys (index : Index) (seen : List Bytes) (ps : List (Site × Schema))
    (found : List Bytes × List Bytes) : Prop :=
  ∀ opened, ∃ ms, index.Traverses opened seen ps ms ∧
    found = (Meeting.keys ms, (Meeting.firsts ms).reverse ++ seen)

theorem ListsKeys.nothing {index : Index} {seen : List Bytes} {site : Site} {part : Schema}
    (noFragment : part.fragment? = none) (noToken : part.token? = none) :
    ListsKeys index seen [(site, part)] ([], seen) :=
  fun _ => ⟨[], .nothing noFragment noToken .done, rfl⟩

theorem ListsKeys.append {ps qs : List (Site × Schema)} {seen : List Bytes}
    {found others : List Bytes × List Bytes} (h : ListsKeys index seen ps found)
    (h' : ListsKeys index found.2 qs others) :
    ListsKeys index seen (ps ++ qs) (found.1 ++ others.1, others.2) := by
  intro opened
  obtain ⟨ms, way, rfl⟩ := h opened
  obtain ⟨ns, way', rfl⟩ := h' opened
  refine ⟨ms ++ ns, way.append way', ?_⟩
  simp [Meeting.keys, Meeting.fragments_append, Meeting.firsts_append]

theorem makes_keysIn {enter : NamedSchema → List Bytes → Build (List Bytes × List Bytes)} {n : Nat}
    (enters : ∀ target seen, remaining index.names seen < n →
      Makes P (enter target seen) (ListsKeys index seen target.placed)) (s : Schema)
    (schemaName : Bytes) (path : List Nat) (seen : List Bytes)
    (fits : remaining index.names seen ≤ n) :
    Makes P (keysIn ⟨index, owner, enter, []⟩ s seen)
      (ListsKeys index seen ((s.parts path).map (place schemaName))) := by
  -- The second motive is about members, which are numbered from `k` on.
  refine keysIn.induct
    (fun s seen => ∀ path, remaining index.names seen ≤ n →
      Makes P (keysIn ⟨index, owner, enter, []⟩ s seen)
        (ListsKeys index seen ((s.parts path).map (place schemaName))))
    (fun members seen => ∀ path k, remaining index.names seen ≤ n →
      Makes P (keysInAll ⟨index, owner, enter, []⟩ members seen)
        (ListsKeys index seen ((Schema.partsOfMembers path k members).map (place schemaName))))
    ?reference ?object ?allOf ?other ?none ?more s seen path fits
  case reference =>
    intro info token seen path fits
    rw [keysIn]
    refine (makes_resolve index token owner).bind fun target resolved => ?_
    unfold searchNamed
    split
    · next old => exact Makes.pure fun _ => ⟨_, .again rfl resolved old .done, rfl⟩
    · next new =>
      have declared := (Index.find?_of_resolve? resolved).2
      have less : remaining index.names (target.name :: seen) < n :=
        Nat.lt_of_lt_of_le (remaining_cons_lt (Index.mem_names_of_find? declared) new) fits
      refine (enters target _ less).mono fun found lists opened => ?_
      obtain ⟨inner, way, rfl⟩ := lists (target.name :: opened)
      refine ⟨_, .first rfl resolved new way .done, ?_⟩
      simp [Meeting.keys, Meeting.fragments_first]
  case object =>
    intro info properties required extra seen path fits
    rw [keysIn]
    refine Makes.pure fun _ => ⟨_, .fragment rfl .done, ?_⟩
    simp [Meeting.keys, Meeting.fragments, Meeting.fragment?]
  case allOf =>
    intro info members seen ih path fits
    rw [keysIn]
    exact ih path 0 fits
  case other =>
    intro s seen noReference noObject noAllOf path fits
    rw [keysIn]
    · refine Makes.pure ?_
      cases s with
      | reference info token => exact absurd rfl (noReference info token)
      | object info properties required extra =>
        exact absurd rfl (noObject info properties required extra)
      | allOf info members => exact absurd rfl (noAllOf info members)
      | primitive | enumeration | array | union => exact .nothing rfl rfl
    all_goals assumption
  case none =>
    intro seen path k fits
    rw [keysInAll]
    exact Makes.pure fun _ => ⟨[], .done, rfl⟩
  case more =>
    intro s rest seen ih others path k fits
    rw [keysInAll]
    refine (ih (path ++ [k]) fits).bind fun found lists => ?_
    have grown : seen ⊆ found.2 := by
      obtain ⟨ms, -, rfl⟩ := lists []
      exact List.subset_append_right _ _
    refine (others found.2 path (k + 1) (Nat.le_trans (remaining_mono grown) fits)).bind
      fun more lists' => Makes.pure ?_
    rw [Schema.partsOfMembers, List.map_append]
    exact lists.append lists'

/-- A bound that exceeds the number of names that are left is never reached. -/
theorem makes_keysWithin {bound : Nat} (s : NamedSchema) {seen : List Bytes}
    (left : remaining index.names seen < bound) :
    Makes P (keysWithin index owner bound s.schema seen) (ListsKeys index seen s.placed) := by
  induction bound generalizing s seen with
  | zero => exact absurd left (Nat.not_lt_zero _)
  | succ bound ih =>
    rw [keysWithin]
    exact makes_keysIn (fun target seen less => ih target less) s.schema s.name [] seen
      (Nat.le_of_lt_succ left)

/-- The keys of a named schema are those that its traversal meets, each once. -/
theorem makes_propertyKeys (s : NamedSchema) :
    Makes P (propertyKeys index s owner) (index.HasKeys s) := by
  have left : remaining index.names [s.name] < index.named.length + 1 := by
    rw [← Index.length_names]
    exact Nat.lt_succ_of_le (remaining_le_length _ _)
  unfold propertyKeys
  refine (makes_keysWithin s left).bind fun found lists => Makes.pure ?_
  obtain ⟨ms, way, rfl⟩ := lists [s.name]
  exact ⟨ms, way, rfl⟩

end Build

end HeaderForge
