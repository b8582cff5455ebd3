import HeaderForge.Proofs.Build.Registry
import HeaderForge.Proofs.Header.Compose
/-!
# Headers depend on what their schemas refer to

A header that was written is kept as long as the nodes of its schema, and of all that the schema
refers to, are the ones it was written from. `compose_local` says when that is sound: two documents
which declare all these by the same nodes give the same header, whatever else they hold.

Three things reach beyond what a schema refers to, and `Undisturbed` excludes them. An inline
enumeration avoids the class names of all schemas. A class may be superseded by one that any other
schema gives the same name. And a tag of a discriminator leads to a schema without referring to it.
-/

namespace HeaderForge

/-- The names that the mapping of a schema's discriminator designates. -/
def Index.tagTargets (index : Index) (name : Bytes) : List Bytes :=
  match (index.find? name).map NamedSchema.schema with
  | some (.union _ _ _ discriminator) => Discriminator.targets discriminator
  | _ => []

/-- The class that a dependency names was built for the schema that it names. -/
def Registry.Owns (r : Registry) (d : Dependency) : Prop :=
  ∃ c, r.find? d.className = some c ∧ c.schemaName = d.schemaName

namespace Build

open Index (Inside Twins)

/-- Nothing but what a schema refers to makes a difference for its class. -/
structure Undisturbed (i j : Index) (settings : ModelSettings) (r r' : Registry) (name : Bytes)
    (c : ClassModel) : Prop where
  /-- The enumerations of the class have the same names in the other index. -/
  enums : ∀ e, e ∈ c.inlineEnums → EnumAgrees i j settings name e.name
  /-- A schema that only a tag leads to does not refer back. -/
  tags : ∀ target, target ∈ i.tagTargets name → target ≠ name → i.reaches name target = false →
    i.reaches target name = false ∧ j.reaches target name = false
  /-- No class that is held indirectly has been superseded by that of another schema. -/
  owned : ∀ d, d ∈ c.dependencies → d.indirect = true → r.Owns d ∧ r'.Owns d

theorem schemaTagsStay_of_undisturbed {i j : Index} {s : NamedSchema}
    (found : i.find? s.name = some s) (inside : Inside i j (i.around s.name) s.schema)
    (tags : ∀ target, target ∈ i.tagTargets s.name → target ≠ s.name →
      i.reaches s.name target = false →
      i.reaches target s.name = false ∧ j.reaches target s.name = false) :
    SchemaTagsStay i j (i.around s.name) s := by
  intro info kind members discriminator union target tagged unknown
  have targets : i.tagTargets s.name = Discriminator.targets discriminator := by
    unfold Index.tagTargets
    rw [found, Option.map_some, union]
  -- The target is declared, so it is unknown only because nothing refers to it.
  have declared : target ∈ i.names := by
    rw [union] at inside
    cases discriminator with
    | none => exact nomatch tagged
    | some d =>
      obtain ⟨entry, member, designated⟩ := List.mem_filterMap.mp tagged
      obtain ⟨t, -, resolves, -⟩ := inside.tag member
      obtain ⟨own, known⟩ := Index.find?_of_resolve? resolves
      rw [designated] at own
      cases own
      exact Index.mem_names_of_find? known
  have apart : ¬ (target = s.name ∨ i.Leads s.name target) := fun h =>
    unknown (Index.mem_around.mpr ⟨declared, h⟩)
  have other : target ≠ s.name := fun h => apart (.inl h)
  have unreached : i.reaches s.name target = false := by
    rw [← Bool.not_eq_true, Index.reaches_iff]
    exact fun h => apart (.inr h)
  obtain ⟨left, right⟩ := tags target (targets ▸ tagged) other unreached
  rw [Index.closesCycle_of_ne (Ne.symm other), Index.closesCycle_of_ne (Ne.symm other)]
  exact ⟨left, right⟩

section

variable {i j : Index} {settings : ModelSettings} {st st' : BuildState} {name : Bytes}
  {c c' : ClassModel} (declared : i.Declared) (declared' : j.Declared)
  (twins : Twins i j (i.around name)) (finished : Finished i settings st)
  (finished' : Finished j settings st') (class_ : st.registry.findSchema? name = some c)
  (class_' : st'.registry.findSchema? name = some c')
  (undisturbed : Undisturbed i j settings st.registry st'.registry name c)
include declared declared' twins finished finished' class_ class_' undisturbed

/-- The two builds have made the same class of the schema, and what it holds indirectly is known. -/
theorem class_eq : c' = c ∧ ∀ d, d ∈ c.dependencies → AmongIfIndirect (i.around name) d := by
  obtain ⟨s, found, before, closed, built⟩ := finished.of_findSchema? declared class_
  obtain ⟨s', found', before', closed', built'⟩ := finished'.of_findSchema? declared' class_'
  have own : s.name = name := Index.name_of_find? found
  have member : name ∈ i.around name :=
    Index.mem_around.mpr ⟨Index.mem_names_of_find? found, .inl rfl⟩
  obtain ⟨t, here, there, inside⟩ := twins.same name member
  cases found.symm.trans here
  cases found'.symm.trans there
  subst own
  have stay := schemaTagsStay_of_undisturbed found inside undisturbed.tags
  obtain ⟨same, among⟩ := buildClass_eq twins member inside stay closed closed' built
    undisturbed.enums
  rw [built'] at same
  exact ⟨Except.ok.inj same, among⟩

/-- What the class holds indirectly is declared ahead alike after both builds. -/
theorem forwardDeclaration?_eq_of_undisturbed (style : Style) (ctx : RenderContext)
    {d : Dependency} (h : d ∈ c.dependencies) :
    Header.forwardDeclaration? style (ctx.among st.registry) d =
      Header.forwardDeclaration? style (ctx.among st'.registry) d := by
  obtain ⟨-, among⟩ :=
    class_eq declared declared' twins finished finished' class_ class_' undisturbed
  refine Header.forwardDeclaration?_eq fun indirect => ?_
  obtain ⟨⟨target, found, own⟩, ⟨target', found', own'⟩⟩ := undisturbed.owned d h indirect
  obtain ⟨t, declares, before, closed, built⟩ :=
    finished.of_mem declared (finished.consistent.find?_eq_some_iff.mp found).1
  obtain ⟨t', declares', before', closed', built'⟩ :=
    finished'.of_mem declared' (finished'.consistent.find?_eq_some_iff.mp found').1
  obtain ⟨u, here, there, inside⟩ := twins.same d.schemaName (among d h indirect)
  rw [own] at declares
  rw [own'] at declares'
  cases declares.symm.trans here
  cases declares'.symm.trans there
  exact ⟨target, target', found, found',
    form_eq_of_buildClass twins inside closed closed' built built'⟩

end

/-- Two documents that declare a schema and all that it leads to by the same nodes give the same
header for it, in every style and place. -/
theorem compose_local {t t' : Bytes} {i j : Index} {settings : ModelSettings}
    {st st' : BuildState} {name : Bytes} {c c' : ClassModel} (style : Style) (ctx : RenderContext)
    (read : Index.read t = .ok i) (read' : Index.read t' = .ok j)
    (built : (buildAll i settings).run.run start = (.ok (), st))
    (built' : (buildAll j settings).run.run start = (.ok (), st'))
    (class_ : st.registry.findSchema? name = some c)
    (class_' : st'.registry.findSchema? name = some c')
    (same : Index.SameSources i j name)
    (undisturbed : Undisturbed i j settings st.registry st'.registry name c) :
    ∃ text, Header.compose style (ctx.among st.registry) c = .ok text ∧
      Header.compose style (ctx.among st'.registry) c' = .ok text := by
  have declared : i.Declared := Index.declared_of_read read
  have declared' : j.Declared := Index.declared_of_read read'
  obtain ⟨resolved, finished⟩ := finished_of_buildAll built
  obtain ⟨resolved', finished'⟩ := finished_of_buildAll built'
  have twins : Twins i j (i.around name) :=
    Index.twins_of_sameSources declared declared' resolved resolved' same
  obtain ⟨rfl, -⟩ :=
    class_eq declared declared' twins finished finished' class_ class_' undisturbed
  -- The rest of a header is a function of the class. Only forward declarations look others up.
  have ahead : ∀ d, d ∈ Header.otherDependencies c' →
      Header.forwardDeclaration? style (ctx.among st.registry) d =
        Header.forwardDeclaration? style (ctx.among st'.registry) d := fun d hd =>
    forwardDeclaration?_eq_of_undisturbed declared declared' twins finished finished' class_ class_'
      undisturbed style ctx (List.mem_filter.mp hd).1
  obtain ⟨s, -, before, closed, ofClass⟩ := finished.of_findSchema? declared class_
  obtain ⟨_, _, outlines⟩ := outlines_of_buildClass closed ofClass
  obtain ⟨text, composed⟩ := @Header.compose_ok style (ctx.among st.registry) c' outlines.variants
  exact ⟨text, composed, (Header.compose_eq ahead).symm.trans composed⟩

/-! ## What lies beyond the references -/

/-- What `compose_local` says, for a schema in two documents, without `Undisturbed`. -/
def ComposesLocally (t t' : Bytes) (settings : ModelSettings) (name : Bytes) : Prop :=
  ∀ (style : Style) (ctx : RenderContext) (i j : Index) (st st' : BuildState) (c c' : ClassModel),
    Index.read t = .ok i → Index.read t' = .ok j →
    (buildAll i settings).run.run start = (.ok (), st) →
    (buildAll j settings).run.run start = (.ok (), st') →
    st.registry.findSchema? name = some c → st'.registry.findSchema? name = some c' →
    Index.SameSources i j name →
    ∃ text, Header.compose style (ctx.among st.registry) c = .ok text ∧
      Header.compose style (ctx.among st'.registry) c' = .ok text

/-- A document that declares schemas. -/
def exDocument (schemas : List (Bytes × Node)) : Node :=
  .obj [(bytes "swagger", .str (bytes "2.0")), (bytes "definitions", .obj schemas)]

/-- The index of such a document. -/
def exIndex (schemas : List (Bytes × Node)) : Index :=
  ⟨.swagger2, bytes "2.0", (Index.readSchemas schemas).toOption.getD []⟩

def exSettings : ModelSettings := ⟨true, []⟩

def exPlace : RenderContext := ⟨bytes "api", true, none⟩

/-- A schema with the given properties. -/
def exRecord (properties : List (Bytes × Node)) : Node :=
  .obj [(bytes "properties", .obj properties)]

def exReference (token : Bytes) : Node := .obj [(bytes "$ref", .str token)]

/-- An order with an enumeration of its own and a customer who refers back to it, and other schemas
that admit any value. -/
def exOrders (others : List Bytes) : List (Bytes × Node) :=
  (bytes "Order", exRecord [(bytes "state", .obj [(bytes "enum", .arr [.str (bytes "open")])]),
    (bytes "by", exReference "Customer")]) ::
  (bytes "Customer", exRecord [(bytes "last", exReference "Order")]) ::
  others.map fun name => (name, .obj [])

/-- A union with a tag for a schema that is none of its members and refers to another one. -/
def exPets (owner : Bytes) : List (Bytes × Node) :=
  [(bytes "Pet", .obj [(bytes "oneOf", .arr [exReference "Cat"]),
      (bytes "discriminator", .obj [(bytes "propertyName", .str (bytes "kind")),
        (bytes "mapping", .obj [(bytes "dog", .str (bytes "Dog"))])])]),
    (bytes "Cat", exRecord []), (bytes "Dog", exRecord [(bytes "owner", exReference owner)])]

/-- The state after the build of a document, and the class of a schema. -/
def exBuilt? (schemas : List (Bytes × Node)) (name : Bytes) : Option (BuildState × ClassModel) :=
  match exec (buildAll (exIndex schemas) exSettings) start with
  | (.ok (), st) => (st.registry.findSchema? name).map fun c => (st, c)
  | (.error _, _) => none

/-- The plain header that a document gives for a schema. -/
def exHeader? (schemas : List (Bytes × Node)) (name : Bytes) : Option Bytes :=
  (exBuilt? schemas name).bind fun (st, c) =>
    (Header.compose .plain (exPlace.among st.registry) c).toOption

section

variable {schemas schemas' : List (Bytes × Node)} {name : Bytes}

theorem readSchemas_ex (reads : (Index.readSchemas schemas).toOption.isSome = true) :
    Index.readSchemas schemas = .ok (exIndex schemas).named := by
  unfold exIndex
  cases h : Index.readSchemas schemas with
  | error e =>
    rw [h] at reads
    exact nomatch reads
  | ok named => rfl

theorem read_exDocument (wf : (exDocument schemas).WellFormed)
    (shallow : (exDocument schemas).depth ≤ Json.maxDepth)
    (reads : (Index.readSchemas schemas).toOption.isSome = true) :
    Index.read (exDocument schemas).toJson = .ok (exIndex schemas) := by
  have read := readSchemas_ex reads
  unfold Index.read
  rw [exDocument, Document.read_printed wf shallow]
  show (do
    let named ← (Index.readSchemas schemas).mapError fun detail => (⟨.parseError, detail⟩ : Failure)
    return (⟨.swagger2, bytes "2.0", named⟩ : Index)) = .ok (exIndex schemas)
  rw [read]
  rfl

theorem sameSources_ex (reads : (Index.readSchemas schemas).toOption.isSome = true)
    (reads' : (Index.readSchemas schemas').toOption.isSome = true)
    (nodes : ∀ other, other ∈ name :: (exIndex schemas).reachable name →
      schemas.lookup other = schemas'.lookup other) :
    Index.SameSources (exIndex schemas) (exIndex schemas') name := by
  intro other h
  have here : (exIndex schemas).sourceOf? other = schemas.lookup other :=
    Index.sourceOf?_of_readSchemas (readSchemas_ex reads) _ _ other
  have there : (exIndex schemas').sourceOf? other = schemas'.lookup other :=
    Index.sourceOf?_of_readSchemas (readSchemas_ex reads') _ _ other
  rw [here, there]
  refine nodes other (List.mem_cons.mpr (h.imp_right fun reached => ?_))
  exact Index.mem_reachable_iff.mpr (Index.reaches_iff.mp reached)

theorem of_exBuilt? {st : BuildState} {c : ClassModel} (h : exBuilt? schemas name = some (st, c)) :
    (buildAll (exIndex schemas) exSettings).run.run start = (.ok (), st) ∧
      st.registry.findSchema? name = some c := by
  unfold exBuilt? at h
  split at h
  · next st' run =>
    obtain ⟨c', found, same⟩ := Option.map_eq_some_iff.mp h
    cases same
    exact ⟨run, found⟩
  · exact nomatch h

/-- Two documents with different headers refute the locality of a schema whose sources they
share. -/
theorem not_composesLocally_of_header
    (read : Index.read (exDocument schemas).toJson = .ok (exIndex schemas))
    (read' : Index.read (exDocument schemas').toJson = .ok (exIndex schemas'))
    (same : Index.SameSources (exIndex schemas) (exIndex schemas') name)
    (differ : ((exHeader? schemas name).bind fun text =>
      (exHeader? schemas' name).map fun text' => decide (text = text')) = some false) :
    ¬ ComposesLocally (exDocument schemas).toJson (exDocument schemas').toJson exSettings name := by
  intro composes
  obtain ⟨text, header, differ⟩ := Option.bind_eq_some_iff.mp differ
  obtain ⟨text', header', differ⟩ := Option.map_eq_some_iff.mp differ
  obtain ⟨⟨st, c⟩, built, composed⟩ := Option.bind_eq_some_iff.mp header
  obtain ⟨⟨st', c'⟩, built', composed'⟩ := Option.bind_eq_some_iff.mp header'
  obtain ⟨run, found⟩ := of_exBuilt? built
  obtain ⟨run', found'⟩ := of_exBuilt? built'
  obtain ⟨both, left, right⟩ :=
    composes .plain exPlace _ _ _ _ _ _ read read' run run' found found' same
  dsimp only at composed composed'
  rw [left] at composed
  rw [right] at composed'
  cases composed
  cases composed'
  exact of_decide_eq_false differ rfl

end

theorem wellFormed_exOrders {others : List Bytes}
    (distinct : (bytes "Order" :: bytes "Customer" :: others).Nodup) :
    (exDocument (exOrders others)).WellFormed := by
  have empty : Node.WellFormedEntries (others.map fun name => (name, Node.obj [])) := by
    rw [Node.wellFormedEntries_iff]
    intro e he
    obtain ⟨name, -, rfl⟩ := List.mem_map.mp he
    simp [Node.WellFormed, Node.WellFormedEntries]
  have names : ((exOrders others).map Prod.fst).Nodup := by
    simpa [exOrders, Function.comp_def] using distinct
  have values : Node.WellFormedEntries (exOrders others) := by
    simp only [exOrders, exRecord, exReference, Node.WellFormed, Node.WellFormedEntries,
      Node.WellFormedItems]
    exact ⟨by decide, by decide, empty⟩
  simp only [exDocument, Node.WellFormed, Node.WellFormedEntries, List.map_cons, List.map_nil]
  exact ⟨by decide, trivial, ⟨names, values⟩, trivial⟩

theorem wellFormed_exPets (owner : Bytes) : (exDocument (exPets owner)).WellFormed := by
  simp only [exDocument, exPets, exRecord, exReference, Node.WellFormed, Node.WellFormedEntries,
    Node.WellFormedItems, List.map_cons, List.map_nil]
  decide

theorem reads_exOrders : (Index.readSchemas (exOrders [])).toOption.isSome = true := by
  decide +kernel

/-- An order and its customer lead to each other only, whatever else is declared. -/
theorem sameSources_exOrders {others : List Bytes}
    (reads' : (Index.readSchemas (exOrders others)).toOption.isSome = true) :
    Index.SameSources (exIndex (exOrders [])) (exIndex (exOrders others)) "Order" := by
  have leads : ∀ other, other ∈ bytes "Order" :: (exIndex (exOrders [])).reachable "Order" →
      other ∈ [bytes "Order", bytes "Customer"] := by decide +kernel
  refine sameSources_ex reads_exOrders reads' fun other h => ?_
  rcases List.mem_cons.mp (leads other h) with rfl | later
  · rfl
  · rw [List.mem_singleton.mp later]
    rfl

/-- What `Undisturbed` asks about a class and the class that it holds. -/
def exFacts (held : Bytes) (built : BuildState × ClassModel) :
    List Bytes × List Dependency × Option Bytes :=
  (built.2.inlineEnums.map EnumDef.name, built.2.dependencies,
    (built.1.registry.find? held).map ClassModel.schemaName)

theorem compose_local_exOrders :
    ∃ st st' c c',
      Index.read (exDocument (exOrders [])).toJson = .ok (exIndex (exOrders [])) ∧
      Index.read (exDocument (exOrders ["Invoice"])).toJson = .ok (exIndex (exOrders ["Invoice"])) ∧
      (buildAll (exIndex (exOrders [])) exSettings).run.run start = (.ok (), st) ∧
      (buildAll (exIndex (exOrders ["Invoice"])) exSettings).run.run start = (.ok (), st') ∧
      st.registry.findSchema? "Order" = some c ∧ st'.registry.findSchema? "Order" = some c' ∧
      Index.SameSources (exIndex (exOrders [])) (exIndex (exOrders ["Invoice"])) "Order" ∧
      Undisturbed (exIndex (exOrders [])) (exIndex (exOrders ["Invoice"])) exSettings st.registry
        st'.registry "Order" c ∧
      ∃ text, Header.compose .plain (exPlace.among st.registry) c = .ok text ∧
        Header.compose .plain (exPlace.among st'.registry) c' = .ok text := by
  have more : (Index.readSchemas (exOrders ["Invoice"])).toOption.isSome = true := by
    decide +kernel
  have facts : (exBuilt? (exOrders []) "Order").map (exFacts "Customer") =
      some ([bytes "OrderState"], [⟨"Customer", "Customer", true⟩], some (bytes "Customer")) := by
    decide +kernel
  have facts' : (exBuilt? (exOrders ["Invoice"]) "Order").map (exFacts "Customer") =
      some ([bytes "OrderState"], [⟨"Customer", "Customer", true⟩], some (bytes "Customer")) := by
    decide +kernel
  obtain ⟨⟨st, c⟩, built, same⟩ := Option.map_eq_some_iff.mp facts
  obtain ⟨⟨st', c'⟩, built', same'⟩ := Option.map_eq_some_iff.mp facts'
  simp only [exFacts, Prod.mk.injEq] at same same'
  obtain ⟨enums, dependencies, owned⟩ := same
  obtain ⟨run, found⟩ := of_exBuilt? built
  obtain ⟨run', found'⟩ := of_exBuilt? built'
  have read := read_exDocument (wellFormed_exOrders (by decide)) (by decide) reads_exOrders
  have read' := read_exDocument (wellFormed_exOrders (by decide)) (by decide) more
  have sources := sameSources_exOrders more
  have undisturbed : Undisturbed (exIndex (exOrders [])) (exIndex (exOrders ["Invoice"]))
      exSettings st.registry st'.registry "Order" c := by
    refine ⟨?_, ?_, ?_⟩
    · intro e he
      have name : e.name = bytes "OrderState" := by
        have member : e.name ∈ c.inlineEnums.map EnumDef.name := List.mem_map_of_mem he
        rw [enums] at member
        exact List.mem_singleton.mp member
      rw [name]
      exact enumAgrees_of_free (by decide +kernel) (by decide +kernel)
    · intro target tagged
      have none : (exIndex (exOrders [])).tagTargets "Order" = [] := by decide +kernel
      rw [none] at tagged
      exact nomatch tagged
    · intro d hd _
      rw [dependencies] at hd
      rw [List.mem_singleton.mp hd]
      exact ⟨Option.map_eq_some_iff.mp owned, Option.map_eq_some_iff.mp same'.2.2⟩
  exact ⟨st, st', c, c', read, read', run, run', found, found', sources, undisturbed,
    compose_local .plain exPlace read read' run run' found found' sources undisturbed⟩

/-- Other schemas change what an order's header says: one takes the name that its enumeration would
have, and one takes the class name of the customer, so that this class cannot be declared ahead. And
a schema that only a tag of a union leads to changes the header of the union by referring back. -/
theorem not_composesLocally :
    ¬ ComposesLocally (exDocument (exOrders [])).toJson
        (exDocument (exOrders ["OrderState"])).toJson exSettings "Order" ∧
      ¬ ComposesLocally (exDocument (exOrders [])).toJson
        (exDocument (exOrders ["customer"])).toJson exSettings "Order" ∧
      ¬ ComposesLocally (exDocument (exPets "Cat")).toJson
        (exDocument (exPets "Pet")).toJson exSettings "Pet" := by
  have state : (Index.readSchemas (exOrders ["OrderState"])).toOption.isSome = true := by
    decide +kernel
  have customer : (Index.readSchemas (exOrders ["customer"])).toOption.isSome = true := by
    decide +kernel
  have apart : (Index.readSchemas (exPets "Cat")).toOption.isSome = true := by decide +kernel
  have back : (Index.readSchemas (exPets "Pet")).toOption.isSome = true := by decide +kernel
  have pets : (exIndex (exPets "Cat")).reachable "Pet" = ["Cat"] := by decide +kernel
  have read := read_exDocument (wellFormed_exOrders (by decide)) (by decide) reads_exOrders
  refine ⟨not_composesLocally_of_header read ?_ ?_ ?_,
    not_composesLocally_of_header read ?_ ?_ ?_, not_composesLocally_of_header ?_ ?_ ?_ ?_⟩
  · exact read_exDocument (wellFormed_exOrders (by decide)) (by decide) state
  · exact sameSources_exOrders state
  · decide +kernel
  · exact read_exDocument (wellFormed_exOrders (by decide)) (by decide) customer
  · exact sameSources_exOrders customer
  · decide +kernel
  · exact read_exDocument (wellFormed_exPets _) (by decide) apart
  · exact read_exDocument (wellFormed_exPets _) (by decide) back
  · refine sameSources_ex apart back fun other h => ?_
    rw [pets] at h
    rcases List.mem_cons.mp h with rfl | later
    · rfl
    · rw [List.mem_singleton.mp later]
      rfl
  · decide +kernel

end Build

end HeaderForge
