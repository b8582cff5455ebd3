import HeaderForge.Proofs.Schema.Index
import HeaderForge.Proofs.Schema.Mentions
import Mathlib.Data.List.Perm.Subperm
/-!
# What two indexes have in common

Two documents may declare a schema, and everything that it refers to, by the same nodes, and differ
in all the rest. `Index.Twins i j known` says what the two indexes then agree about for the set of
`known` names: the schemas of these names, what a token in them means, and which references between
them close a cycle. Nothing is said about names outside the set but that a discriminator tag which
leads there finds a schema of the same name in both.

1. `Index.SameSources` is the assumption, about the nodes alone.
2. `Index.twins_of_sameSources` derives the agreement from it.
3. `Index.Twins.refl` is the agreement of an index with itself, about all of its names.
-/

namespace HeaderForge

namespace Index

/-- The nodes that declare a name and every name it leads to are the same in both indexes. The names
that it leads to in the second index are then the same, too. -/
def SameSources (i j : Index) (name : Bytes) : Prop :=
  ∀ other, other = name ∨ i.reaches name other = true → i.sourceOf? other = j.sourceOf? other

/-- Every token of every named schema finds a schema. -/
def Resolved (index : Index) : Prop :=
  ∀ s, s ∈ index.named → ∀ m, m ∈ s.schema.mentions 0 → ∃ t, index.resolve? m.token = some t

/-! ## The agreement -/

variable {i j : Index} {known : List Bytes}

/-- A token finds a schema in both indexes, and outside mappings one of the known names. -/
def Meets (i j : Index) (known : List Bytes) (m : Mention) : Prop :=
  ∃ s t, i.resolve? m.token = some s ∧ j.resolve? m.token = some t ∧
    (m.inMapping = false → s.name ∈ known)

/-- Every token of a schema does. -/
def Inside (i j : Index) (known : List Bytes) (s : Schema) : Prop :=
  ∃ depth, ∀ m, m ∈ s.mentions depth → Meets i j known m

structure Twins (i j : Index) (known : List Bytes) : Prop where
  same : ∀ name, name ∈ known → ∃ s, i.find? name = some s ∧ j.find? name = some s ∧
    Inside i j known s.schema
  cycles : ∀ a, a ∈ known → ∀ b, b ∈ known → i.closesCycle a b = j.closesCycle a b
  left : known.length ≤ i.named.length
  right : known.length ≤ j.named.length

/-- Both indexes mean a schema of the same name by a token. -/
theorem name_eq_of_resolve? {token : Bytes} {s t : NamedSchema} (h : i.resolve? token = some s)
    (h' : j.resolve? token = some t) : s.name = t.name := by
  have designated := (find?_of_resolve? h).1
  rw [(find?_of_resolve? h').1] at designated
  exact (Option.some.inj designated).symm

/-- A token outside mappings finds one and the same schema, whose tokens are inside again. -/
theorem Twins.resolve (twins : Twins i j known) {m : Mention} (meets : Meets i j known m)
    (outside : m.inMapping = false) : ∃ s, i.resolve? m.token = some s ∧
      j.resolve? m.token = some s ∧ s.name ∈ known ∧ Inside i j known s.schema := by
  obtain ⟨s, t, here, there, inside⟩ := meets
  obtain ⟨u, found, found', deeper⟩ := twins.same s.name (inside outside)
  have left : u = s := Option.some.inj (found.symm.trans (find?_of_resolve? here).2)
  have right : u = t := by
    rw [name_eq_of_resolve? here there] at found'
    exact Option.some.inj (found'.symm.trans (find?_of_resolve? there).2)
  subst left
  subst right
  exact ⟨u, here, there, inside outside, deeper⟩

/-! ## Parts of schemas -/

section

variable {info : SchemaInfo}

theorem Inside.meets {token : Bytes} (h : Inside i j known (.reference info token)) :
    ∃ m, m.token = token ∧ m.inMapping = false ∧ Meets i j known m := by
  obtain ⟨depth, all⟩ := h
  exact ⟨⟨token, depth, false⟩, rfl, rfl, all _ (by simp [Schema.mentions])⟩

theorem Inside.items {items : Schema} (h : Inside i j known (.array info (some items))) :
    Inside i j known items := by
  obtain ⟨depth, all⟩ := h
  exact ⟨depth + 1, fun m hm => all m (by rw [Schema.mentions]; exact hm)⟩

theorem Inside.member {members : List Schema} {member : Schema}
    (h : Inside i j known (.allOf info members)) (member_mem : member ∈ members) :
    Inside i j known member := by
  obtain ⟨depth, all⟩ := h
  refine ⟨depth + 1, fun m hm => all m ?_⟩
  rw [Schema.mentions]
  exact Schema.mem_mentionsOfMembers.mpr ⟨member, member_mem, hm⟩

theorem Inside.alternative {kind : UnionKind} {members : List Schema} {member : Schema}
    {discriminator : Option Discriminator}
    (h : Inside i j known (.union info kind members discriminator))
    (member_mem : member ∈ members) : Inside i j known member := by
  obtain ⟨depth, all⟩ := h
  refine ⟨depth + 1, fun m hm => all m ?_⟩
  rw [Schema.mentions, List.mem_append]
  exact .inl (Schema.mem_mentionsOfMembers.mpr ⟨member, member_mem, hm⟩)

/-- The target of a tag finds a schema in both indexes, known or not. -/
theorem Inside.tag {kind : UnionKind} {members : List Schema} {d : Discriminator}
    {entry : Bytes × Bytes} (h : Inside i j known (.union info kind members (some d)))
    (entry_mem : entry ∈ d.mapping) :
    ∃ s t, i.resolve? entry.2 = some s ∧ j.resolve? entry.2 = some t := by
  obtain ⟨depth, all⟩ := h
  have here : ⟨entry.2, depth, true⟩ ∈ Discriminator.mentions depth (some d) :=
    List.mem_map.mpr ⟨entry, entry_mem, rfl⟩
  obtain ⟨s, t, found, found', -⟩ := all ⟨entry.2, depth, true⟩ (by
    rw [Schema.mentions, List.mem_append]
    exact .inr here)
  exact ⟨s, t, found, found'⟩

theorem Inside.property {properties : List (Bytes × Schema)} {required : List Bytes}
    {extra : Extra Schema} {property : Bytes × Schema}
    (h : Inside i j known (.object info properties required extra))
    (property_mem : property ∈ properties) : Inside i j known property.2 := by
  obtain ⟨depth, all⟩ := h
  refine ⟨depth + 1, fun m hm => all m ?_⟩
  exact Schema.mem_mentions_object.mpr (.inl ⟨property, property_mem, hm⟩)

theorem Inside.lookup {properties : List (Bytes × Schema)} {required : List Bytes}
    {extra : Extra Schema} {key : Bytes} {property : Schema}
    (h : Inside i j known (.object info properties required extra))
    (found : properties.lookup key = some property) : Inside i j known property := by
  obtain ⟨front, back, rfl, -⟩ := List.lookup_eq_some_iff.mp found
  exact @Inside.property _ _ _ _ _ _ _ (key, property) h (by simp)

theorem Inside.extra {properties : List (Bytes × Schema)} {required : List Bytes} {extra : Schema}
    (h : Inside i j known (.object info properties required (.each extra))) :
    Inside i j known extra := by
  obtain ⟨depth, all⟩ := h
  refine ⟨depth + 1, fun m hm => all m ?_⟩
  exact Schema.mem_mentions_object.mpr (.inr ⟨extra, rfl, hm⟩)

end

/-! ## From equal nodes -/

theorem length_names (index : Index) : index.names.length = index.named.length :=
  List.length_map _

/-- A name and all that it leads to, in the order of the index. -/
def around (index : Index) (name : Bytes) : List Bytes :=
  index.names.filter fun other => other = name || index.reaches name other

theorem mem_around {index : Index} {name other : Bytes} :
    other ∈ index.around name ↔
      other ∈ index.names ∧ (other = name ∨ index.Leads name other) := by
  simp [around, reaches_iff]

theorem edge_mem_around {index : Index} {name source target : Bytes}
    (h : source ∈ index.around name) (edge : target ∈ index.edges source) :
    target ∈ index.around name := by
  refine mem_around.mpr ⟨edges_subset_names edge, .inr ?_⟩
  rcases (mem_around.mp h).2 with rfl | chain
  · exact .edge edge
  · exact .step chain edge

/-- A chain of references that starts in a set which the edges do not leave is a chain in every
index with the same edges there. -/
theorem Leads.transfer (closed : ∀ x, x ∈ known → ∀ y, y ∈ i.edges x → y ∈ known)
    (edges : ∀ x, x ∈ known → i.edges x = j.edges x) {source target : Bytes}
    (start : source ∈ known) (chain : i.Leads source target) :
    j.Leads source target ∧ target ∈ known := by
  induction chain with
  | edge e => exact ⟨.edge (edges source start ▸ e), closed source start _ e⟩
  | step _ e ih =>
    obtain ⟨before, middle⟩ := ih
    exact ⟨.step before (edges _ middle ▸ e), closed _ middle _ e⟩

theorem Inside.directReferences_eq {s : Schema}
    (h : ∀ m, m ∈ s.mentions 0 → Meets i j known m) :
    i.directReferences s = j.directReferences s := by
  unfold directReferences
  congr 1
  refine List.filterMap_congr fun m hm => ?_
  obtain ⟨t, u, found, found', -⟩ := h m (List.mem_of_mem_filter hm)
  rw [found, found']
  exact congrArg some (name_eq_of_resolve? found found')

variable {name : Bytes}

theorem find?_eq_of_sameSources (declared : i.Declared) (declared' : j.Declared)
    (same : SameSources i j name) {other : Bytes} (h : other ∈ i.around name) :
    ∃ s, i.find? other = some s ∧ j.find? other = some s := by
  obtain ⟨inside, reached⟩ := mem_around.mp h
  obtain ⟨s, found⟩ := exists_find?_of_mem_names inside
  refine ⟨s, found, ?_⟩
  rw [← found]
  exact (declared.find?_eq declared' (same other (reached.imp_right reaches_iff.mpr))).symm

/-- The same nodes under a name and under all that it leads to make twins of two indexes whose
references resolve, about these names. -/
theorem twins_of_sameSources (declared : i.Declared) (declared' : j.Declared)
    (resolved : i.Resolved) (resolved' : j.Resolved) (same : SameSources i j name) :
    Twins i j (i.around name) := by
  have common : ∀ other, other ∈ i.around name → ∃ s, i.find? other = some s ∧
      j.find? other = some s := fun _ => find?_eq_of_sameSources declared declared' same
  -- A token resolves in both indexes, and to a name around this one unless it is a tag.
  have meets : ∀ other, other ∈ i.around name → ∀ s, i.find? other = some s →
      ∀ m, m ∈ s.schema.mentions 0 → Meets i j (i.around name) m := by
    intro other h s found m hm
    obtain ⟨s', here, there⟩ := common other h
    obtain rfl : s' = s := Option.some.inj (here.symm.trans found)
    obtain ⟨t, resolves⟩ := resolved s' (List.mem_of_find?_eq_some here) m hm
    obtain ⟨u, resolves'⟩ := resolved' s' (List.mem_of_find?_eq_some there) m hm
    refine ⟨t, u, resolves, resolves', fun outside => edge_mem_around h ?_⟩
    unfold edges
    rw [here]
    exact mem_directReferences.mpr ⟨m, hm, outside, t, resolves, rfl⟩
  have edges_eq : ∀ other, other ∈ i.around name → i.edges other = j.edges other := by
    intro other h
    obtain ⟨s, here, there⟩ := common other h
    unfold edges
    rw [here, there]
    exact Inside.directReferences_eq (meets other h s here)
  have closed : ∀ x, x ∈ i.around name → ∀ y, y ∈ i.edges x → y ∈ i.around name :=
    fun x hx y hy => edge_mem_around hx hy
  -- A chain that starts around the name stays there, so it takes the same edges in both.
  have chains : ∀ a, a ∈ i.around name → ∀ b, i.Leads a b ↔ j.Leads a b := fun a ha b =>
    ⟨fun chain => (chain.transfer closed edges_eq ha).1,
      fun chain => (chain.transfer (fun x hx y hy => closed x hx y (edges_eq x hx ▸ hy))
        (fun x hx => (edges_eq x hx).symm) ha).1⟩
  refine ⟨?_, ?_, ?_, ?_⟩
  · intro other h
    obtain ⟨s, here, there⟩ := common other h
    exact ⟨s, here, there, 0, meets other h s here⟩
  · intro a _ b hb
    rw [Bool.eq_iff_iff, closesCycle_iff, closesCycle_iff, chains b hb]
  · rw [← length_names]
    exact List.length_filter_le _ _
  · have distinct : (i.around name).Nodup := declared.distinct.filter _
    have inside : i.around name ⊆ j.names := fun other h =>
      let ⟨_, _, there⟩ := common other h
      mem_names_of_find? there
    rw [← length_names]
    exact (distinct.subperm inside).length_le

/-- Every schema of an index whose references resolve is inside it. -/
theorem Inside.of_resolved (resolved : i.Resolved) {s : NamedSchema} (member : s ∈ i.named) :
    Inside i i i.names s.schema := by
  refine ⟨0, fun m hm => ?_⟩
  obtain ⟨t, found⟩ := resolved s member m hm
  exact ⟨t, t, found, found, fun _ => mem_names_of_find? (find?_of_resolve? found).2⟩

/-- An index whose references resolve agrees with itself about all of its names. -/
theorem Twins.refl (resolved : i.Resolved) : Twins i i i.names := by
  have size : i.names.length ≤ i.named.length := Nat.le_of_eq (length_names i)
  refine ⟨fun name h => ?_, fun _ _ _ _ => rfl, size, size⟩
  obtain ⟨s, found⟩ := exists_find?_of_mem_names h
  exact ⟨s, found, found, Inside.of_resolved resolved (List.mem_of_find?_eq_some found)⟩

end Index

end HeaderForge
