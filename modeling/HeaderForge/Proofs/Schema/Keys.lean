import HeaderForge.Proofs.Schema.Dependence
/-!
# The keys of properties

No object of a document has a key twice, so no object schema that was read from one has a property
twice, at whatever depth. `Index.distinctKeys_of_read` says so for every index that is read; what is
said about the order of properties assumes no more.
-/

namespace HeaderForge

namespace Schema

/-- Every object schema at every depth has its properties under distinct keys. -/
inductive DistinctKeys : Schema → Prop
  | primitive (info : SchemaInfo) : DistinctKeys (.primitive info)
  | enumeration (info : SchemaInfo) (values : LiteralList) : DistinctKeys (.enumeration info values)
  | reference (info : SchemaInfo) (token : Bytes) : DistinctKeys (.reference info token)
  | array (info : SchemaInfo) {items : Option Schema} :
    (∀ s, items = some s → DistinctKeys s) → DistinctKeys (.array info items)
  | object (info : SchemaInfo) {properties : List (Bytes × Schema)} (required : List Bytes)
    {extra : Extra Schema} :
    (properties.map Prod.fst).Nodup → (∀ p, p ∈ properties → DistinctKeys p.2) →
    (∀ s, extra = .each s → DistinctKeys s) →
    DistinctKeys (.object info properties required extra)
  | allOf (info : SchemaInfo) {members : List Schema} :
    (∀ s, s ∈ members → DistinctKeys s) → DistinctKeys (.allOf info members)
  | union (info : SchemaInfo) (kind : UnionKind) {members : List Schema}
    (discriminator : Option Discriminator) :
    (∀ s, s ∈ members → DistinctKeys s) → DistinctKeys (.union info kind members discriminator)

theorem DistinctKeys.keys {info : SchemaInfo} {properties : List (Bytes × Schema)}
    {required : List Bytes} {extra : Extra Schema}
    (h : DistinctKeys (.object info properties required extra)) :
    (properties.map Prod.fst).Nodup := by
  cases h with
  | object _ _ keys _ _ => exact keys

theorem DistinctKeys.properties {info : SchemaInfo} {properties : List (Bytes × Schema)}
    {required : List Bytes} {extra : Extra Schema}
    (h : DistinctKeys (.object info properties required extra)) :
    ∀ p, p ∈ properties → p.2.DistinctKeys := by
  cases h with
  | object _ _ _ inside _ => exact inside

theorem DistinctKeys.members {info : SchemaInfo} {members : List Schema}
    (h : DistinctKeys (.allOf info members)) : ∀ s, s ∈ members → s.DistinctKeys := by
  cases h with
  | allOf _ all => exact all

/-! ## Reading -/

section

variable {build : Bytes → Node → Except Bytes Schema}
  (sound : ∀ context n s, n.DistinctKeys → build context n = .ok s → s.DistinctKeys)
include sound

theorem distinctKeys_of_readMembers {context : Bytes} {place : Nat} {nodes : List Node}
    {members : List Schema} (distinct : ∀ n, n ∈ nodes → n.DistinctKeys)
    (h : readMembers build context place nodes = .ok members) :
    ∀ s, s ∈ members → s.DistinctKeys := by
  induction nodes generalizing place members with
  | nil =>
    cases h
    exact List.forall_mem_nil _
  | cons n rest ih =>
    obtain ⟨member, read, h⟩ := ok_of_bind h
    obtain ⟨others, more, h⟩ := ok_of_bind h
    cases h
    obtain ⟨first, later⟩ := List.forall_mem_cons.mp distinct
    exact List.forall_mem_cons.mpr ⟨sound _ _ _ first read, ih later more⟩

theorem distinctKeys_of_readProperties {context : Bytes} {entries : List (Bytes × Node)}
    {properties : List (Bytes × Schema)} (distinct : ∀ e, e ∈ entries → e.2.DistinctKeys)
    (h : readProperties build context entries = .ok properties) :
    properties.map Prod.fst = entries.map Prod.fst ∧
      ∀ p, p ∈ properties → p.2.DistinctKeys := by
  induction entries generalizing properties with
  | nil =>
    cases h
    exact ⟨rfl, List.forall_mem_nil _⟩
  | cons entry rest ih =>
    obtain ⟨key, n⟩ := entry
    obtain ⟨property, read, h⟩ := ok_of_bind h
    obtain ⟨others, more, h⟩ := ok_of_bind h
    cases h
    obtain ⟨first, later⟩ := List.forall_mem_cons.mp distinct
    obtain ⟨keys, all⟩ := ih later more
    refine ⟨by simp [keys], List.forall_mem_cons.mpr ⟨sound _ _ _ first read, all⟩⟩

theorem distinctKeys_of_readExtra {context : Bytes} {n : Option Node} {extra : Extra Schema}
    (distinct : ∀ found, n = some found → found.DistinctKeys)
    (h : readExtra build context n = .ok extra) : ∀ s, extra = .each s → s.DistinctKeys := by
  unfold readExtra at h
  split at h
  · cases h
    exact fun _ same => nomatch same
  · cases h
    exact fun _ same => nomatch same
  · obtain ⟨type, read, h⟩ := ok_of_bind h
    cases h
    intro s same
    cases same
    exact sound _ _ _ (distinct _ rfl) read
  · cases h
    exact fun _ same => nomatch same

theorem distinctKeys_of_readObject {context : Bytes} {info : SchemaInfo} {n : Node} {s : Schema}
    (distinct : n.DistinctKeys) (h : readObject build context info n = .ok s) :
    s.DistinctKeys := by
  obtain ⟨properties, readProperties, h⟩ := ok_of_bind h
  obtain ⟨extra, readExtra, h⟩ := ok_of_bind h
  cases h
  -- The entries under `properties` are none or those of an object of the document.
  have entries : ((((n.find? (bytes "properties")).bind Node.entries?).getD []).map
        Prod.fst).Nodup ∧
      ∀ e, e ∈ ((n.find? (bytes "properties")).bind Node.entries?).getD [] →
        e.2.DistinctKeys := by
    cases found : (n.find? (bytes "properties")).bind Node.entries? with
    | none => exact ⟨List.nodup_nil, List.forall_mem_nil _⟩
    | some entries =>
      obtain ⟨object, there, isObject⟩ := Option.bind_eq_some_iff.mp found
      have inside := distinct.of_find? there
      refine ⟨?_, fun e he => inside.of_entries? isObject he⟩
      cases object with
      | obj =>
        cases isObject
        exact inside.1
      | null | bool | num | str | arr => exact nomatch isObject
  obtain ⟨keys, all⟩ := distinctKeys_of_readProperties sound entries.2 readProperties
  refine .object _ _ (keys ▸ entries.1) all ?_
  exact distinctKeys_of_readExtra sound (fun _ found => distinct.of_find? found) readExtra

theorem distinctKeys_of_ofKeys {context : Bytes} {n : Node} {s : Schema}
    (distinct : n.DistinctKeys) (h : ofKeys build context n = .ok s) : s.DistinctKeys := by
  -- The cases are those of the reader.
  unfold ofKeys at h
  dsimp only at h
  split at h
  · next nodes list =>
    obtain ⟨members, read, h⟩ := ok_of_bind h
    have all := distinctKeys_of_readMembers sound
      (fun _ member => Node.distinctKeys_of_itemsAt? distinct list member) read
    split at h
    · obtain ⟨sibling, object, h⟩ := ok_of_bind h
      cases h
      refine .allOf _ fun s hs => ?_
      rcases List.mem_append.mp hs with member | last
      · exact all s member
      · rw [List.mem_singleton.mp last]
        exact distinctKeys_of_readObject sound distinct object
    · cases h
      exact .allOf _ all
  · split at h
    · next kind nodes alternatives =>
      obtain ⟨members, read, h⟩ := ok_of_bind h
      cases h
      refine .union _ _ _ (distinctKeys_of_readMembers sound (fun n member => ?_) read)
      unfold unionAt? at alternatives
      split at alternatives
      · next list =>
        cases alternatives
        exact Node.distinctKeys_of_itemsAt? distinct list member
      · obtain ⟨found, list, same⟩ := Option.map_eq_some_iff.mp alternatives
        cases same
        exact Node.distinctKeys_of_itemsAt? distinct list member
    · split at h
      · cases h
        exact .enumeration _ _
      · cases h
        exact .enumeration _ _
      · split at h
        · split at h
          · next items found =>
            obtain ⟨type, read, h⟩ := ok_of_bind h
            cases h
            refine .array _ fun s same => ?_
            cases same
            exact sound _ _ _ (distinct.of_find? found) read
          · cases h
            exact .array _ fun _ same => nomatch same
        · split at h
          · exact distinctKeys_of_readObject sound distinct h
          · cases h
            exact .primitive _

end

theorem distinctKeys_of_ofNode {levels : Nat} {context : Bytes} {n : Node} {s : Schema}
    (distinct : n.DistinctKeys) (h : ofNode levels context n = .ok s) : s.DistinctKeys := by
  induction levels generalizing context n s with
  | zero => exact nomatch h
  | succ levels ih =>
    unfold ofNode at h
    split at h
    · dsimp only at h
      split at h
      · cases h
        exact .reference _ _
      · exact distinctKeys_of_ofKeys (fun _ _ _ inside read => ih inside read) distinct h
    · cases h
      exact .primitive _

end Schema

namespace Index

/-- Every schema of the index has distinct keys. -/
def DistinctKeys (index : Index) : Prop := ∀ s, s ∈ index.named → s.schema.DistinctKeys

theorem distinctKeys_of_ofDocument {doc : Node} {index : Index} (distinct : doc.DistinctKeys)
    (h : ofDocument doc = .ok index) : index.DistinctKeys := by
  intro s member
  have declared := declared_of_ofDocument distinct h
  have source : index.sourceOf? s.name = some s.schema.info.source := by
    rw [sourceOf?, declared.find?_of_mem member]
    rfl
  rw [sourceOf?_of_ofDocument h] at source
  exact Schema.distinctKeys_of_ofNode (distinct.of_declaration? source) (declared.reads s member)

/-- In an index that was read no object has a property twice. -/
theorem distinctKeys_of_read {t : Bytes} {index : Index} (h : read t = .ok index) :
    index.DistinctKeys := by
  obtain ⟨doc, loaded, h⟩ := ok_of_bind h
  have well : doc.WellFormed := Document.wellFormed_of_read (ok_of_mapError loaded)
  exact distinctKeys_of_ofDocument well.distinctKeys h

end Index

end HeaderForge
