import HeaderForge.Proofs.Bytes.Sorting
import HeaderForge.Proofs.Schema.Reference
import HeaderForge.Schema.Dependence
/-!
# Two ways to go through references

The builder asks whether one name leads to another and searches depth first, with a table that it
keeps from one question to the next. The hash of a schema gathers all names that the schema leads to
breadth first, and passes over its own name. Both see the same graph: what they find is what a chain
of one or more references leads to.

1. `Spreading` is what holds while names are gathered. `Spreading.visit` keeps it for one schema,
   and by `Spreading.ends` it holds in the end, when none is left.
2. `mem_dependencies_iff` says what is gathered.
3. `Index.ask` answers a question with the table of the questions before, and `answers_exact` is the
   result for both ways.
-/

namespace HeaderForge

namespace Index

/-! ## Gathering names -/

/-- What holds while the names that a schema leads to are gathered. The pending schemas are declared
under its name or one that was found, and what any other of these refers to was found, too. -/
structure Spreading (index : Index) (own : Bytes) (found : List Bytes) (pending : List Schema) :
    Prop where
  distinct : found.Nodup
  apart : own ∉ found
  names : ∀ x, x ∈ found → x ∈ index.names
  leads : ∀ x, x ∈ found → index.Leads own x
  sources : ∀ p, p ∈ pending → ∃ t, (t.name = own ∨ t.name ∈ found) ∧
    index.find? t.name = some t ∧ t.schema = p
  closed : ∀ t, t.name = own ∨ t.name ∈ found → index.find? t.name = some t →
    t.schema ∈ pending ∨ ∀ y, y ∈ index.directReferences t.schema → y = own ∨ y ∈ found

variable {index : Index} {own : Bytes} {found : List Bytes} {next : Schema} {pending : List Schema}

theorem mem_edges_of_find? {t : NamedSchema} (h : index.find? t.name = some t) {y : Bytes} :
    y ∈ index.edges t.name ↔ y ∈ index.directReferences t.schema := by
  rw [edges, h]

/-- The names that a schema adds to those that were found before. -/
theorem mem_fresh {y : Bytes} : y ∈ ((index.directReferences next).filter fun name =>
      name ≠ own && !found.contains name) ↔
    y ∈ index.directReferences next ∧ y ≠ own ∧ y ∉ found := by
  simp

/-- To go through the schema that came first keeps what holds. -/
theorem Spreading.visit (on : Spreading index own found (next :: pending)) :
    let fresh := (index.directReferences next).filter fun name =>
      name ≠ own && !found.contains name
    Spreading index own (found ++ fresh)
      (pending ++ (fresh.filterMap index.find?).map NamedSchema.schema) := by
  intro fresh
  obtain ⟨source, from_, declared, same⟩ := on.sources next List.mem_cons_self
  -- What the schema refers to is an edge of the name that it is declared under.
  have edge : ∀ y, y ∈ fresh → y ∈ index.edges source.name := fun y hy => by
    rw [mem_edges_of_find? declared, same]
    exact (mem_fresh.mp hy).1
  refine ⟨?_, ?_, fun x hx => ?_, fun x hx => ?_, fun p hp => ?_, fun t ht declared' => ?_⟩
  · refine List.nodup_append.mpr ⟨on.distinct, (Bytes.sublist_nodup_eraseDups _).2.filter _, ?_⟩
    rintro x before y hy rfl
    exact (mem_fresh.mp hy).2.2 before
  · intro there
    rcases List.mem_append.mp there with before | new
    · exact on.apart before
    · exact (mem_fresh.mp new).2.1 rfl
  · rcases List.mem_append.mp hx with before | new
    · exact on.names x before
    · exact edges_subset_names (edge x new)
  · rcases List.mem_append.mp hx with before | new
    · exact on.leads x before
    · rcases from_ with start | middle
      · exact .edge (start ▸ edge x new)
      · exact .step (on.leads _ middle) (edge x new)
  · rcases List.mem_append.mp hp with waits | new
    · obtain ⟨t, known, rest⟩ := on.sources p (List.mem_cons_of_mem _ waits)
      exact ⟨t, known.imp_right (List.mem_append_left _), rest⟩
    · obtain ⟨t, there, rfl⟩ := List.mem_map.mp new
      obtain ⟨x, hx, lookup⟩ := List.mem_filterMap.mp there
      have named := name_of_find? lookup
      exact ⟨t, .inr (List.mem_append_right _ (named ▸ hx)), named ▸ lookup, rfl⟩
  · have old : t.name = own ∨ t.name ∈ found → t.schema ∈ pending ∨
        ∀ y, y ∈ index.directReferences t.schema → y = own ∨ y ∈ found ++ fresh := by
      intro known
      rcases on.closed t known declared' with waits | done
      · rcases List.mem_cons.mp waits with now | later
        · refine .inr fun y hy => ?_
          rw [now] at hy
          by_cases self : y = own
          · exact .inl self
          · by_cases before : y ∈ found
            · exact .inr (List.mem_append_left _ before)
            · exact .inr (List.mem_append_right _ (mem_fresh.mpr ⟨hy, self, before⟩))
        · exact .inl later
      · exact .inr fun y hy => (done y hy).imp_right (List.mem_append_left _)
    have kept : ∀ {q}, q ∈ pending → q ∈ pending ++
        (fresh.filterMap index.find?).map NamedSchema.schema := List.mem_append_left _
    rcases ht with self | known
    · exact (old (.inl self)).imp_left kept
    · rcases List.mem_append.mp known with before | new
      · exact (old (.inr before)).imp_left kept
      · have there := List.mem_filterMap.mpr ⟨t.name, new, declared'⟩
        exact .inl (List.mem_append_right _ (List.mem_map_of_mem there))

/-- With as many visits as schemas are pending and names are left to be found, none is pending in
the end. -/
theorem Spreading.ends {visits : Nat} (on : Spreading index own found pending)
    (enough : index.names.length + pending.length ≤ visits + found.length) :
    Spreading index own (index.spread own visits found pending) [] := by
  induction visits generalizing found pending with
  | zero =>
    have most := (on.distinct.subperm on.names).length_le
    have none : pending = [] := List.length_eq_zero_iff.mp (by omega)
    subst none
    exact on
  | succ visits ih =>
    cases pending with
    | nil => exact on
    | cons next rest =>
      rw [spread]
      refine ih on.visit ?_
      have waiting := List.length_filterMap_le index.find?
        ((index.directReferences next).filter fun name => name ≠ own && !found.contains name)
      simp only [List.length_append, List.length_map, List.length_cons] at enough ⊢
      omega

/-- Nothing is missing where no schema is pending. -/
theorem Spreading.mem_of_leads (on : Spreading index own found []) {x : Bytes}
    (chain : index.Leads own x) : x = own ∨ x ∈ found := by
  have follows : ∀ {a b}, (a = own ∨ a ∈ found) → b ∈ index.edges a → b = own ∨ b ∈ found := by
    intro a b known edge
    cases lookup : index.find? a with
    | none =>
      rw [edges, lookup] at edge
      exact nomatch edge
    | some t =>
      have named := name_of_find? lookup
      subst named
      have closed := (on.closed t known lookup).resolve_left List.not_mem_nil
      exact closed b ((mem_edges_of_find? lookup).mp edge)
  induction chain with
  | edge e => exact follows (.inl rfl) e
  | step _ e ih => exact follows ih e

/-- The dependencies of a schema are the other names that it leads to. -/
theorem mem_dependencies_iff {s : NamedSchema} (declared : index.find? s.name = some s)
    {name : Bytes} : name ∈ index.dependencies s ↔ name ≠ s.name ∧ index.Leads s.name name := by
  have start : Spreading index s.name [] [s.schema] := by
    refine ⟨List.nodup_nil, List.not_mem_nil, List.forall_mem_nil _, List.forall_mem_nil _,
      fun p hp => ⟨s, .inl rfl, declared, (List.mem_singleton.mp hp).symm⟩, fun t ht found => ?_⟩
    rw [ht.resolve_right List.not_mem_nil, declared] at found
    cases found
    exact .inl List.mem_cons_self
  have ends : Spreading index s.name
      (index.spread s.name (index.names.length + 1) [] [s.schema]) [] := start.ends (by simp)
  rw [dependencies, Bytes.mem_sortDistinct]
  constructor
  · exact fun there => ⟨fun same => ends.apart (same ▸ there), ends.leads name there⟩
  · rintro ⟨other, chain⟩
    exact (ends.mem_of_leads chain).resolve_left other

/-! ## Questions one after the other -/

/-- A question about the references of an index. -/
inductive Query where
  | reaches (source target : Bytes)
  | closesCycle (source target : Bytes)

/-- The answer to a question, with the table for the next one. -/
def ask (index : Index) (table : EdgeTable) : Query → Bool × EdgeTable
  | .reaches source target => index.reachesFrom table source target
  | .closesCycle source target => index.closesCycleFrom table source target

/-- The table after questions. -/
def tableAfter (index : Index) (earlier : List Query) : EdgeTable :=
  earlier.foldl (fun table q => (index.ask table q).2) []

theorem knows_ask {table : EdgeTable} (knows : index.Knows table) (q : Query) :
    index.Knows (index.ask table q).2 := by
  cases q with
  | reaches source target => exact knows_reachesFrom knows source target
  | closesCycle source target =>
    rw [ask, closesCycleFrom]
    split
    · exact knows
    · exact knows_reachesFrom knows target source

theorem knows_tableAfter (index : Index) (earlier : List Query) :
    index.Knows (index.tableAfter earlier) := by
  unfold tableAfter
  generalize start : ([] : EdgeTable) = table
  have knows : index.Knows table := start ▸ knows_nil index
  clear start
  induction earlier generalizing table with
  | nil => exact knows
  | cons q rest ih => exact ih _ (knows_ask knows q)

/-- Whatever was asked before, a search for a way from one name to another comes to its end, and
finds one exactly if a chain of one or more references leads there. A reference closes a cycle
exactly if it leads from a name to itself, or such a chain leads back. The hash of a schema covers
exactly the other names that a chain leads to from its own. -/
theorem answers_exact (index : Index) :
    (∀ earlier source target,
      let table := index.tableAfter earlier
      let first := index.edgesFrom table source
      index.Searches target first.2 [] first.1.reverse (index.ask table (.reaches source target)) ∧
        ((index.ask table (.reaches source target)).1 = true ↔ index.Leads source target) ∧
        ((index.ask table (.closesCycle source target)).1 = true ↔
          source = target ∨ index.Leads target source)) ∧
      ∀ s, index.find? s.name = some s → ∀ name,
        name ∈ index.dependencies s ↔ name ≠ s.name ∧ index.Leads s.name name := by
  refine ⟨fun earlier source target => ?_, fun s declared name => mem_dependencies_iff declared⟩
  have knows := knows_tableAfter index earlier
  exact ⟨searches_reachesFrom knows source target, reachesFrom_iff knows, closesCycleFrom_iff knows⟩

/-- An alias. -/
def exAlias (name token : Bytes) : NamedSchema :=
  ⟨name, .reference ⟨.any, [], [], [], false, false, false, .obj []⟩ token⟩

/-- Two schemas that refer to each other, and one that refers to them. -/
def exRing : Index where
  dialect := .swagger2
  version := bytes "2.0"
  named := [exAlias "Pet" "Owner", exAlias "Owner" "Pet", exAlias "Toy" "Pet"]

/-- The table that the questions before have left does not mislead the search. -/
theorem answers_exact_exRing :
    let table := exRing.tableAfter [.closesCycle "Pet" "Owner", .reaches "Toy" "Toy"]
    table.length = 3 ∧ exRing.Leads "Pet" "Pet" ∧ ¬ exRing.Leads "Pet" "Toy" ∧
      exRing.find? "Toy" = some (exAlias "Toy" "Pet") ∧
      exRing.dependencies (exAlias "Toy" "Pet") = ["Owner", "Pet"] ∧
      exRing.Leads "Toy" "Owner" := by
  intro table
  obtain ⟨answers, hashed⟩ := answers_exact exRing
  have asked := answers [.closesCycle "Pet" "Owner", .reaches "Toy" "Toy"]
  have declared : exRing.find? "Toy" = some (exAlias "Toy" "Pet") := rfl
  have gathered : exRing.dependencies (exAlias "Toy" "Pet") = ["Owner", "Pet"] := by decide +kernel
  refine ⟨by decide +kernel, (asked "Pet" "Pet").2.1.mp (by decide +kernel),
    fun chain => ?_, declared, gathered, ?_⟩
  · exact absurd ((asked "Pet" "Toy").2.1.mpr chain) (by decide +kernel)
  · refine ((hashed (exAlias "Toy" "Pet") declared "Owner").mp ?_).2
    rw [gathered]
    exact List.mem_cons_self

end Index

end HeaderForge
