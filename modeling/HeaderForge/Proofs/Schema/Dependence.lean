import HeaderForge.Proofs.Document.Lookup
import HeaderForge.Proofs.Schema.Index
import HeaderForge.Proofs.Schema.Mentions
import HeaderForge.Proofs.Schema.Reachability
/-!
# The hash of a schema and the order of entries

The schemas of an index come in the order of the document, and so do the references of each. Yet the
hash that says whether a header is up to date is the same for every order: it is made of canonical
texts, and of a set of names that is put in order.

1. `mem_parts_sorted` and `cites_sorted`: a node cites what its sorted form cites.
2. `Node.Links` is the reference graph as the document has it, and `Index.mem_edges_iff` says that
   an index has the same one.
3. `Index.dependenceHash_eq_of_same` is the result.
-/

namespace HeaderForge

/-! ## Keys of sorted nodes -/

namespace Schema

variable {n : Node}

theorem itemsAt?_sorted (distinct : n.DistinctKeys) (key : Bytes) :
    itemsAt? n.sorted key = (itemsAt? n key).map (List.map Node.sorted) := by
  rw [itemsAt?, itemsAt?, Node.find?_sorted distinct]
  cases n.find? key with
  | none => rfl
  | some found => exact Node.items?_sorted found

theorem unionAt?_sorted (distinct : n.DistinctKeys) :
    unionAt? n.sorted = (unionAt? n).map fun found => (found.1, found.2.map Node.sorted) := by
  rw [unionAt?, unionAt?, itemsAt?_sorted distinct, itemsAt?_sorted distinct]
  cases itemsAt? n (bytes "oneOf") with
  | some members => rfl
  | none => cases itemsAt? n (bytes "anyOf") <;> rfl

theorem constAt?_sorted (distinct : n.DistinctKeys) :
    constAt? n.sorted = (constAt? n).map Node.sorted := by
  rw [constAt?, constAt?, Node.find?_sorted distinct]
  cases n.find? (bytes "const") with
  | none => rfl
  | some found => cases found <;> rfl

theorem TypeEntry.ofList_sorted (items : List Node) (entry : TypeEntry) :
    ofList (items.map Node.sorted) entry = ofList items entry := by
  induction items generalizing entry with
  | nil => rfl
  | cons item rest ih => simp only [List.map_cons, ofList, Node.text_sorted, ih]

theorem TypeEntry.ofNode_sorted (n : Option Node) :
    TypeEntry.ofNode (n.map Node.sorted) = TypeEntry.ofNode n := by
  cases n with
  | none => rfl
  | some n =>
    cases n with
    | arr items =>
      rw [Option.map_some, Node.sorted, Node.sortedItems_eq_map]
      exact ofList_sorted items _
    | null | bool | num | str | obj => rfl

end Schema

/-! ## Parts of sorted nodes -/

namespace Node

open Schema (itemsAt? unionAt? constAt? TypeEntry)

variable {n : Node}

theorem extraPart_sorted (n : Option Node) :
    extraPart (n.map sorted) = (extraPart n).map sorted := by
  cases n with
  | none => rfl
  | some n =>
    cases n with
    | obj entries =>
      cases entries with
      | nil => rfl
      | cons entry rest =>
        have filled : Bytes.sortKeys (sortedEntries (entry :: rest)) ≠ [] := fun empty => by
          have perm := Bytes.sortKeys_perm (sortedEntries (entry :: rest))
          rw [empty] at perm
          exact nomatch perm.nil_eq
        obtain ⟨first, others, same⟩ := List.exists_cons_of_ne_nil filled
        rw [Option.map_some, sorted, same]
        simp only [extraPart, List.map_cons, List.map_nil, sorted, same]
    | null | bool | num | str | arr => rfl

theorem mem_objectParts_sorted (distinct : n.DistinctKeys) (part : Node) :
    part ∈ n.sorted.objectParts ↔ part ∈ n.objectParts.map sorted := by
  rw [objectParts, objectParts, find?_sorted distinct, find?_sorted distinct, extraPart_sorted,
    List.map_append, List.mem_append, List.mem_append]
  refine or_congr ?_ Iff.rfl
  cases n.find? (bytes "properties") with
  | none => rfl
  | some found =>
    simp only [Option.map_some, Option.bind_some, entries?_sorted]
    cases found.entries? with
    | none => rfl
    | some entries =>
      have perm := (Bytes.sortKeys_perm (sortedEntries entries)).map Prod.snd
      simp only [Option.map_some, Option.getD_some]
      rw [perm.mem_iff, sortedEntries_eq_map, List.map_map, List.map_map]
      rfl

theorem mem_parts_sorted (distinct : n.DistinctKeys) (part : Node) :
    part ∈ n.sorted.parts ↔ part ∈ n.parts.map sorted := by
  have object := mem_objectParts_sorted distinct part
  rw [parts, parts]
  simp only [Schema.itemsAt?_sorted distinct, Schema.unionAt?_sorted distinct,
    Schema.constAt?_sorted distinct, find?_sorted distinct, TypeEntry.ofNode_sorted,
    Option.isSome_map]
  -- All that is asked of a key has the same answer now, and the parts are mapped.
  cases itemsAt? n (bytes "allOf") with
  | some members =>
    dsimp only [Option.map_some]
    split
    · rw [List.mem_append, object, List.map_append, List.mem_append]
    · rfl
  | none =>
    cases unionAt? n with
    | some found => rfl
    | none =>
      dsimp only [Option.map_none]
      split
      · rfl
      · split
        · cases n.find? (bytes "items") <;> rfl
        · split
          · exact object
          · rfl

theorem distinctKeys_of_mem_objectParts (distinct : n.DistinctKeys) {part : Node}
    (h : part ∈ n.objectParts) : part.DistinctKeys := by
  rcases List.mem_append.mp h with property | extra
  · obtain ⟨entry, member, rfl⟩ := List.mem_map.mp property
    cases found : (n.find? (bytes "properties")).bind entries? with
    | none =>
      rw [found] at member
      exact nomatch member
    | some entries =>
      rw [found] at member
      obtain ⟨properties, there, isObject⟩ := Option.bind_eq_some_iff.mp found
      exact (distinct.of_find? there).of_entries? isObject member
  · unfold extraPart at extra
    split at extra
    · next found =>
      rw [List.mem_singleton.mp extra]
      exact distinct.of_find? found
    · exact nomatch extra

theorem distinctKeys_of_itemsAt? (distinct : n.DistinctKeys) {key : Bytes} {items : List Node}
    (h : itemsAt? n key = some items) {part : Node} (member : part ∈ items) :
    part.DistinctKeys := by
  obtain ⟨found, there, isList⟩ := Option.bind_eq_some_iff.mp h
  exact (distinct.of_find? there).of_items? isList member

theorem distinctKeys_of_mem_parts (distinct : n.DistinctKeys) {part : Node} (h : part ∈ n.parts) :
    part.DistinctKeys := by
  unfold parts at h
  split at h
  · next members found =>
    split at h
    · rcases List.mem_append.mp h with member | sibling
      · exact distinctKeys_of_itemsAt? distinct found member
      · exact distinctKeys_of_mem_objectParts distinct sibling
    · exact distinctKeys_of_itemsAt? distinct found h
  · split at h
    · next kind members found =>
      unfold unionAt? at found
      split at found
      · next oneOf =>
        cases found
        exact distinctKeys_of_itemsAt? distinct oneOf h
      · obtain ⟨members', anyOf, same⟩ := Option.map_eq_some_iff.mp found
        cases same
        exact distinctKeys_of_itemsAt? distinct anyOf h
    · dsimp only at h
      split at h
      · cases h
      · split at h
        · exact distinct.of_find? (Option.mem_toList.mp h)
        · split at h
          · exact distinctKeys_of_mem_objectParts distinct h
          · cases h

/-- A node cites what its sorted form cites. -/
theorem cites_sorted {token : Bytes} (distinct : n.DistinctKeys) :
    n.sorted.Cites token ↔ n.Cites token := by
  constructor
  · intro cites
    generalize form : n.sorted = m at cites
    induction cites generalizing n with
    | here here =>
      subst form
      exact .here (by rwa [stringAt?_sorted distinct] at here)
    | part apart member _ ih =>
      subst form
      obtain ⟨part, there, same⟩ := List.mem_map.mp ((mem_parts_sorted distinct _).mp member)
      refine .part ?_ there (ih (distinctKeys_of_mem_parts distinct there) same)
      rwa [stringAt?_sorted distinct] at apart
  · intro cites
    induction cites with
    | here here => exact .here (by rwa [stringAt?_sorted distinct])
    | part apart member _ ih =>
      have there := (mem_parts_sorted distinct _).mpr (List.mem_map_of_mem member)
      refine .part ?_ there (ih (distinctKeys_of_mem_parts distinct member))
      rwa [stringAt?_sorted distinct]

/-! ## The reference graph of a document -/

/-- The schema of one name refers to the schema of another one. -/
def Links (doc : Node) (source target : Bytes) : Prop :=
  ∃ n token, doc.declaration? source = some n ∧ n.Cites token ∧
    referenceName? token = some target ∧ (doc.declaration? target).isSome

variable {doc : Node}

theorem declarations?_sorted (distinct : doc.DistinctKeys) :
    doc.sorted.declarations? = doc.declarations?.map sorted := by
  unfold declarations?
  simp only [find?_sorted distinct]
  cases doc.find? (bytes "swagger") with
  | some version => rfl
  | none =>
    cases components : doc.find? (bytes "components") with
    | none => rfl
    | some found => exact find?_sorted (distinct.of_find? components) _

theorem declaration?_sorted (distinct : doc.DistinctKeys) (name : Bytes) :
    doc.sorted.declaration? name = (doc.declaration? name).map sorted := by
  unfold declaration?
  rw [declarations?_sorted distinct]
  cases found : doc.declarations? with
  | none => rfl
  | some schemas => exact find?_sorted (distinct.of_declarations? found) name

theorem links_sorted (distinct : doc.DistinctKeys) (source target : Bytes) :
    doc.sorted.Links source target ↔ doc.Links source target := by
  unfold Links
  simp only [declaration?_sorted distinct, Option.isSome_map, Option.map_eq_some_iff]
  constructor
  · rintro ⟨_, token, ⟨n, declared, rfl⟩, cites, designated, known⟩
    exact ⟨n, token, declared, (cites_sorted (distinct.of_declaration? declared)).mp cites,
      designated, known⟩
  · rintro ⟨n, token, declared, cites, designated, known⟩
    exact ⟨n.sorted, token, ⟨n, declared, rfl⟩,
      (cites_sorted (distinct.of_declaration? declared)).mpr cites, designated, known⟩

end Node

namespace Index

/-! ## The index of a document -/

variable {doc : Node} {index : Index}

theorem isSome_find? (h : ofDocument doc = .ok index) (name : Bytes) :
    (index.find? name).isSome = (doc.declaration? name).isSome := by
  rw [← sourceOf?_of_ofDocument h name, sourceOf?, Option.isSome_map]

theorem mem_directReferences_iff {s : Schema} {name : Bytes} :
    name ∈ index.directReferences s ↔ ∃ token, s.Refers 0 token ∧
      referenceName? token = some name ∧ (index.find? name).isSome := by
  rw [mem_directReferences]
  constructor
  · rintro ⟨⟨token, depth, inMapping⟩, mentioned, rfl, t, resolved, rfl⟩
    obtain ⟨designated, found⟩ := find?_of_resolve? resolved
    exact ⟨token, ⟨depth, mentioned⟩, designated, Option.isSome_of_eq_some found⟩
  · rintro ⟨token, ⟨depth, mentioned⟩, designated, known⟩
    obtain ⟨t, found⟩ := Option.isSome_iff_exists.mp known
    refine ⟨⟨token, depth, false⟩, mentioned, rfl, t, ?_, name_of_find? found⟩
    rw [resolve?, designated]
    exact found

/-- The schemas of an index refer to each other as the nodes of its document do. -/
theorem mem_edges_iff (h : ofDocument doc = .ok index) {source target : Bytes} :
    target ∈ index.edges source ↔ doc.Links source target := by
  have declared := sourceOf?_of_ofDocument h source
  unfold sourceOf? at declared
  unfold edges Node.Links
  cases found : index.find? source with
  | none =>
    rw [found] at declared
    simp [← declared]
  | some s =>
    rw [found] at declared
    have read := reads_of_ofDocument h (List.mem_of_find?_eq_some found)
    simp [← declared, mem_directReferences_iff, Schema.refers_iff_cites read, isSome_find? h]

/-! ## The hash -/

theorem Leads.mono {i j : Index} (edges : ∀ a b, b ∈ i.edges a → b ∈ j.edges a)
    {source target : Bytes} (chain : i.Leads source target) : j.Leads source target := by
  induction chain with
  | edge e => exact .edge (edges _ _ e)
  | step _ e ih => exact .step ih (edges _ _ e)

/-- The dependencies of a schema are the other schemas that it leads to, once each and in order. -/
theorem dependencies_eq {s : NamedSchema} (declared : index.find? s.name = some s) :
    index.dependencies s =
      Bytes.sortDistinct ((index.reachable s.name).filter fun name => name ≠ s.name) := by
  rw [dependencies]
  refine Bytes.sortDistinct_eq fun other => ?_
  rw [← Bytes.mem_sortDistinct, ← dependencies, mem_dependencies_iff declared, List.mem_filter,
    mem_reachable_iff, decide_eq_true_iff, and_comm]

theorem sourceText_eq (name : Bytes) :
    index.sourceText name = ((index.sourceOf? name).map Node.canonical).getD (bytes "null") := by
  rw [sourceText, sourceOf?]
  cases index.find? name <;> rfl

section

variable {a b : Node} {i j : Index} (distinct : a.DistinctKeys) (same : Node.Same a b)
  (read : ofDocument a = .ok i) (read' : ofDocument b = .ok j)
include distinct same

/-- Documents that are equal up to the order of entries declare nodes that are. -/
theorem declaration?_eq_of_same (name : Bytes) :
    (a.declaration? name).map Node.sorted = (b.declaration? name).map Node.sorted := by
  rw [← Node.declaration?_sorted distinct, Node.sorted_eq_of_same distinct same,
    Node.declaration?_sorted (same.distinctKeys distinct)]

theorem links_iff_of_same (source target : Bytes) :
    a.Links source target ↔ b.Links source target := by
  rw [← Node.links_sorted distinct, Node.sorted_eq_of_same distinct same,
    Node.links_sorted (same.distinctKeys distinct)]

include read read'

theorem leads_iff_of_same {source target : Bytes} :
    i.Leads source target ↔ j.Leads source target := by
  have edges : ∀ x y, y ∈ i.edges x ↔ y ∈ j.edges x := fun x y => by
    rw [mem_edges_iff read, links_iff_of_same distinct same, mem_edges_iff read']
  exact ⟨Leads.mono fun x y => (edges x y).mp, Leads.mono fun x y => (edges x y).mpr⟩

theorem dependencies_eq_of_same {s t : NamedSchema} (found : i.find? s.name = some s)
    (found' : j.find? t.name = some t) (name : s.name = t.name) :
    i.dependencies s = j.dependencies t := by
  rw [dependencies_eq found, dependencies_eq found', name]
  refine Bytes.sortDistinct_eq fun other => ?_
  rw [List.mem_filter, List.mem_filter, mem_reachable_iff, mem_reachable_iff,
    leads_iff_of_same distinct same read read']

theorem sourceOf?_eq_of_same (name : Bytes) :
    (i.sourceOf? name).map Node.canonical = (j.sourceOf? name).map Node.canonical := by
  have canonical : Node.canonical = Node.toJson ∘ Node.sorted := rfl
  rw [sourceOf?_of_ofDocument read, sourceOf?_of_ofDocument read', canonical,
    ← Option.map_map, ← Option.map_map, declaration?_eq_of_same distinct same]

theorem dependenceText_eq_of_same {s t : NamedSchema} (found : i.find? s.name = some s)
    (found' : j.find? t.name = some t) (name : s.name = t.name) (settings : Bytes) :
    i.dependenceText s settings = j.dependenceText t settings := by
  have sources := sourceOf?_eq_of_same distinct same read read'
  have texts : ∀ other, i.sourceText other = j.sourceText other := fun other => by
    rw [sourceText_eq, sourceText_eq, sources]
  have own : s.schema.info.source.canonical = t.schema.info.source.canonical := by
    have own := sources s.name
    rw [sourceOf?, sourceOf?, found, name, found'] at own
    exact Option.some.inj own
  rw [dependenceText, dependenceText, own,
    dependencies_eq_of_same distinct same read read' found found' name]
  simp only [texts]

end

/-- The hash of every schema is the same for two documents that are equal up to the order of the
entries of each object, at every depth and with the order of the schemas themselves. No object of a
document that was read has a key twice. -/
theorem dependenceHash_eq_of_same {a b : Node} {i j : Index} (distinct : a.DistinctKeys)
    (same : Node.Same a b) (read : ofDocument a = .ok i) (read' : ofDocument b = .ok j)
    (settings name : Bytes) :
    (i.find? name).map (fun s => i.dependenceHash s settings) =
      (j.find? name).map fun s => j.dependenceHash s settings := by
  have sources := sourceOf?_eq_of_same distinct same read read' name
  unfold sourceOf? at sources
  cases found : i.find? name with
  | none =>
    rw [found] at sources
    rw [Option.map_eq_none_iff.mp (Option.map_eq_none_iff.mp sources.symm), Option.map_none,
      Option.map_none]
  | some s =>
    rw [found] at sources
    obtain ⟨n, declared, -⟩ := Option.map_eq_some_iff.mp sources.symm
    obtain ⟨t, found', -⟩ := Option.map_eq_some_iff.mp declared
    have names : s.name = t.name := (name_of_find? found).trans (name_of_find? found').symm
    have texts := dependenceText_eq_of_same distinct same read read'
      (name_of_find? found ▸ found) (name_of_find? found' ▸ found') names settings
    rw [found', Option.map_some, Option.map_some, dependenceHash, dependenceHash, texts]

/-- A document whose two entries come in one order or the other. -/
def exShelter (version schemas : Bytes × Node) : Node := .obj [version, schemas]

/-- An object whose properties come in one order or the other. -/
def exPet (first second : Bytes × Node) : Node :=
  .obj [(bytes "type", .str (bytes "object")), (bytes "properties", .obj [first, second])]

theorem dependenceHash_eq_of_same_exShelter :
    let version := (bytes "swagger", Node.str (bytes "2.0"))
    let name := (bytes "name", Node.obj [(bytes "type", .str (bytes "string"))])
    let owner := (bytes "owner", Node.obj [(bytes "$ref", .str (bytes "#/definitions/Owner"))])
    let keeper := (bytes "Owner", Node.obj [(bytes "type", .str (bytes "object"))])
    let a := exShelter version (bytes "definitions", .obj [(bytes "Pet", exPet name owner), keeper])
    let b := exShelter (bytes "definitions", .obj [keeper, (bytes "Pet", exPet owner name)]) version
    a.DistinctKeys ∧ Node.Same a b ∧ ∃ i j, ofDocument a = .ok i ∧ ofDocument b = .ok j ∧
      (i.find? (bytes "Pet")).isSome ∧
      (i.find? (bytes "Pet")).map (fun s => i.dependenceHash s (bytes "ns=app")) =
        (j.find? (bytes "Pet")).map fun s => j.dependenceHash s (bytes "ns=app") := by
  intro version name owner keeper a b
  have distinct : a.DistinctKeys := by
    simp only [a, version, name, owner, keeper, exShelter, exPet, Node.DistinctKeys,
      Node.DistinctEntries]
    decide
  have same : Node.Same a b := Node.same_of_sorted_eq a b rfl
  exact ⟨distinct, same, _, _, rfl, rfl, rfl,
    dependenceHash_eq_of_same distinct same rfl rfl (bytes "ns=app") (bytes "Pet")⟩

end Index

end HeaderForge
