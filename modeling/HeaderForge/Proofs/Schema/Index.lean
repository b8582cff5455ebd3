import HeaderForge.Proofs.Document.Lookup
import HeaderForge.Proofs.Document.Reading
import HeaderForge.Proofs.Schema.Reference
import Mathlib.Data.List.Nodup
/-!
# What an index holds

An index that was read declares no name twice, and its schemas carry the nodes that they were read
from. So the schema of a name is the same in any two indexes that declare it by the same node.
-/

namespace HeaderForge

namespace Schema

theorem source_of_readObject {build : Bytes → Node → Except Bytes Schema} {context : Bytes}
    {info : SchemaInfo} {n : Node} {s : Schema} (h : readObject build context info n = .ok s) :
    s.info = info := by
  obtain ⟨properties, -, h⟩ := ok_of_bind h
  obtain ⟨extra, -, h⟩ := ok_of_bind h
  cases h
  rfl

theorem source_of_ofKeys {build : Bytes → Node → Except Bytes Schema} {context : Bytes} {n : Node}
    {s : Schema} (h : ofKeys build context n = .ok s) : s.info.source = n := by
  unfold ofKeys at h
  dsimp only at h
  split at h
  · obtain ⟨members, -, h⟩ := ok_of_bind h
    split at h
    · obtain ⟨sibling, -, h⟩ := ok_of_bind h
      cases h
      rfl
    · cases h
      rfl
  · split at h
    · obtain ⟨members, -, h⟩ := ok_of_bind h
      cases h
      rfl
    · split at h
      · cases h
        simp only [info]
        split <;> rfl
      · cases h
        simp only [info]
        split <;> rfl
      · split at h
        · split at h
          · obtain ⟨items, -, h⟩ := ok_of_bind h
            cases h
            rfl
          · cases h
            rfl
        · split at h
          · rw [source_of_readObject h]
            rfl
          · cases h
            rfl

/-- A schema carries the node that it was read from. -/
theorem source_of_ofNode {levels : Nat} {context : Bytes} {n : Node} {s : Schema}
    (h : ofNode levels context n = .ok s) : s.info.source = n := by
  cases levels with
  | zero => exact nomatch h
  | succ levels =>
    unfold ofNode at h
    split at h
    · dsimp only at h
      split at h
      · cases h
        rfl
      · exact source_of_ofKeys h
    · cases h
      rfl

end Schema

namespace Index

/-- The node that declares a name. -/
def sourceOf? (index : Index) (name : Bytes) : Option Node :=
  (index.find? name).map fun s => s.schema.info.source

/-- No name is declared twice, and every schema is what its own node reads as under its name. -/
structure Declared (index : Index) : Prop where
  distinct : index.names.Nodup
  reads : ∀ s, s ∈ index.named →
    Schema.ofNode (Schema.maxDepth + 1) s.name s.schema.info.source = .ok s.schema

theorem names_of_readSchemas {entries : List (Bytes × Node)} {named : List NamedSchema}
    (h : readSchemas entries = .ok named) :
    named.map NamedSchema.name = entries.map Prod.fst ∧ ∀ s, s ∈ named →
      Schema.ofNode (Schema.maxDepth + 1) s.name s.schema.info.source = .ok s.schema := by
  induction entries generalizing named with
  | nil =>
    cases h
    exact ⟨rfl, List.forall_mem_nil _⟩
  | cons entry rest ih =>
    obtain ⟨name, n⟩ := entry
    obtain ⟨schema, read, h⟩ := ok_of_bind h
    obtain ⟨others, more, h⟩ := ok_of_bind h
    cases h
    obtain ⟨names, reads⟩ := ih more
    refine ⟨by simp [names], fun s hs => ?_⟩
    rcases List.mem_cons.mp hs with rfl | hs
    · rw [Schema.source_of_ofNode read]
      exact read
    · exact reads s hs

/-- The node that declares a name is the one at the name's entry. -/
theorem sourceOf?_of_readSchemas {entries : List (Bytes × Node)} {named : List NamedSchema}
    (h : readSchemas entries = .ok named) (dialect : Dialect) (version name : Bytes) :
    (⟨dialect, version, named⟩ : Index).sourceOf? name = entries.lookup name := by
  unfold sourceOf? find?
  dsimp only
  induction entries generalizing named with
  | nil =>
    cases h
    rfl
  | cons entry rest ih =>
    obtain ⟨key, n⟩ := entry
    obtain ⟨schema, read, h⟩ := ok_of_bind h
    obtain ⟨others, more, h⟩ := ok_of_bind h
    cases h
    by_cases here : key = name
    · simp [here, Schema.source_of_ofNode read]
    · have other : (name == key) = false := by simpa using Ne.symm here
      rw [List.find?_cons_of_neg (by simpa using here), List.lookup_cons, other]
      exact ih more

end Index

/-! ## The declarations of a document -/

namespace Node

/-- The node that declares the schemas of a document. -/
def declarations? (doc : Node) : Option Node :=
  match doc.find? (bytes "swagger") with
  | some _ => doc.find? (bytes "definitions")
  | none => (doc.find? (bytes "components")).bind (·.find? (bytes "schemas"))

/-- The node that declares a schema of a document. -/
def declaration? (doc : Node) (name : Bytes) : Option Node :=
  doc.declarations?.bind (·.find? name)

variable {doc n : Node}

theorem DistinctKeys.of_declarations? (distinct : doc.DistinctKeys)
    (h : doc.declarations? = some n) : n.DistinctKeys := by
  unfold declarations? at h
  split at h
  · exact distinct.of_find? h
  · obtain ⟨components, found, there⟩ := Option.bind_eq_some_iff.mp h
    exact (distinct.of_find? found).of_find? there

theorem DistinctKeys.of_declaration? (distinct : doc.DistinctKeys) {name : Bytes}
    (h : doc.declaration? name = some n) : n.DistinctKeys := by
  obtain ⟨schemas, found, there⟩ := Option.bind_eq_some_iff.mp h
  exact (distinct.of_declarations? found).of_find? there

end Node

namespace Index

variable {doc : Node} {index : Index}

theorem declarations?_of_header {dialect : Dialect} {version : Bytes} {schemas : Option Node}
    (h : header doc = .ok (dialect, version, schemas)) : doc.declarations? = schemas := by
  unfold header at h
  unfold Node.declarations?
  split at h
  · next swagger =>
    dsimp only at h
    split at h
    · cases h
      rw [swagger]
    · exact nomatch h
  · next swagger openapi =>
    dsimp only at h
    split at h
    · cases h
      rw [swagger]
    · exact nomatch h
  · exact nomatch h

theorem readSchemas_of_ofDocument (h : ofDocument doc = .ok index) :
    readSchemas ((doc.declarations?.bind Node.entries?).getD []) = .ok index.named := by
  unfold ofDocument at h
  split at h
  · obtain ⟨⟨dialect, version, schemas⟩, top, h⟩ := ok_of_bind h
    obtain ⟨named, read, h⟩ := ok_of_bind h
    cases h
    rw [declarations?_of_header top]
    exact ok_of_mapError read
  · exact nomatch h

/-- Every named schema is what its node reads as. -/
theorem reads_of_ofDocument (h : ofDocument doc = .ok index) {s : NamedSchema}
    (hs : s ∈ index.named) :
    Schema.ofNode (Schema.maxDepth + 1) s.name s.schema.info.source = .ok s.schema :=
  (names_of_readSchemas (readSchemas_of_ofDocument h)).2 s hs

/-- The schemas of an index are declared by the nodes that the document has for their names. -/
theorem sourceOf?_of_ofDocument (h : ofDocument doc = .ok index) (name : Bytes) :
    index.sourceOf? name = doc.declaration? name := by
  have read := readSchemas_of_ofDocument h
  refine (sourceOf?_of_readSchemas read index.dialect index.version name).trans ?_
  unfold Node.declaration?
  cases doc.declarations? with
  | none => rfl
  | some n => cases n <;> rfl

theorem declared_of_ofDocument (distinct : doc.DistinctKeys) (h : ofDocument doc = .ok index) :
    index.Declared := by
  obtain ⟨names, -⟩ := names_of_readSchemas (readSchemas_of_ofDocument h)
  refine ⟨?_, fun _ => reads_of_ofDocument h⟩
  show (index.named.map NamedSchema.name).Nodup
  rw [names]
  cases declarations : doc.declarations? with
  | none => exact List.nodup_nil
  | some n =>
    cases n with
    | obj entries => exact (distinct.of_declarations? declarations).1
    | null | bool | num | str | arr => exact List.nodup_nil

theorem declared_of_read {t : Bytes} (h : read t = .ok index) : index.Declared := by
  obtain ⟨doc, loaded, h⟩ := ok_of_bind h
  have well : doc.WellFormed := Document.wellFormed_of_read (ok_of_mapError loaded)
  exact declared_of_ofDocument well.distinctKeys h

/-! ## Names and their schemas -/

theorem find?_of_mem_named {index : Index} (distinct : index.names.Nodup) {s : NamedSchema}
    (member : s ∈ index.named) : index.find? s.name = some s := by
  obtain ⟨t, found⟩ := exists_find?_of_mem_names (List.mem_map_of_mem member)
  have inside : t ∈ index.named := List.mem_of_find?_eq_some found
  rw [found, List.inj_on_of_nodup_map distinct inside member (name_of_find? found)]

namespace Declared

variable {index other : Index}

theorem find?_of_mem (declared : index.Declared) {s : NamedSchema} (member : s ∈ index.named) :
    index.find? s.name = some s :=
  find?_of_mem_named declared.distinct member

/-- The same node under the same name is the same schema. -/
theorem find?_eq (declared : index.Declared) (declared' : other.Declared) {name : Bytes}
    (same : index.sourceOf? name = other.sourceOf? name) :
    index.find? name = other.find? name := by
  unfold sourceOf? at same
  cases found : index.find? name with
  | none =>
    rw [found] at same
    exact (Option.map_eq_none_iff.mp same.symm).symm
  | some s =>
    rw [found] at same
    obtain ⟨s', found', source⟩ := Option.map_eq_some_iff.mp same.symm
    have read := declared.reads s (List.mem_of_find?_eq_some found)
    have read' := declared'.reads s' (List.mem_of_find?_eq_some found')
    have name_s : s.name = name := name_of_find? found
    have name_s' : s'.name = name := name_of_find? found'
    rw [source, name_s', ← name_s, read] at read'
    obtain ⟨n, schema⟩ := s
    obtain ⟨n', schema'⟩ := s'
    cases read'
    cases name_s
    cases name_s'
    exact found'.symm

end Declared

end Index

end HeaderForge
