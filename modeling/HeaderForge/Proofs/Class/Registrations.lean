import HeaderForge.Proofs.Build.Containment
import HeaderForge.Proofs.Bytes.Sorting
import Mathlib.Data.List.Nodup
import Mathlib.Data.List.Induction
/-!
# Registries after a series of registrations

What a registry holds is said by the series of classes that were put into it, as long as no schema
comes in it twice. `Represents` is this account, slot tables left out; putting a class carries it on
(`Represents.put`), whatever names are taken, and so it holds after any series
(`represents_ofPuts`).

1. `registry_of_puts`: names of classes are distinct and come in the order in which they first came,
   a name stands for the last class that was put under it, a schema has its class unless a later one
   took the name, and a class supersedes another one exactly if its name came before.
2. `registry_of_buildAll`: a build is such a series, with one class for each schema of the index.
-/

namespace HeaderForge

namespace Registry

/-- The registry after the given classes were put into an empty one. -/
def ofPuts (puts : List ClassModel) : Registry := puts.foldl put empty

/-- The last of some classes that was put under a name. -/
def lastNamed (puts : List ClassModel) (name : Bytes) : Option ClassModel :=
  puts.reverse.find? fun c => c.name = name

theorem lastNamed_append (puts : List ClassModel) (c : ClassModel) (name : Bytes) :
    lastNamed (puts ++ [c]) name = if c.name = name then some c else lastNamed puts name := by
  unfold lastNamed
  rw [List.reverse_append, List.reverse_singleton, List.singleton_append, List.find?_cons]
  by_cases own : c.name = name <;> simp [own]

theorem mem_of_lastNamed {puts : List ClassModel} {name : Bytes} {c : ClassModel}
    (h : lastNamed puts name = some c) : c ∈ puts ∧ c.name = name :=
  ⟨List.mem_reverse.mp (List.mem_of_find?_eq_some h), by simpa using List.find?_some h⟩

/-- A class is the last under its name if no later one has it. -/
theorem lastNamed_of_split {c : ClassModel} (earlier : List ClassModel) {later : List ClassModel}
    (alone : c.name ∉ later.map ClassModel.name) :
    lastNamed (earlier ++ c :: later) c.name = some c := by
  refine List.find?_eq_some_iff_append.mpr
    ⟨by simp, later.reverse, earlier.reverse, by simp, fun d hd => ?_⟩
  have other : d.name ≠ c.name := fun same =>
    alone (List.mem_map.mpr ⟨d, List.mem_reverse.mp hd, same⟩)
  simpa using other

/-- What the registry holds once some classes were put, the last of them last. -/
structure Represents (puts : List ClassModel) (r : Registry) : Prop where
  consistent : r.Consistent
  order : r.classes.map ClassModel.name = (puts.map ClassModel.name).eraseDups
  last : ∀ name, r.find? name = lastNamed puts name
  /-- A schema has its class until a later one takes the name. -/
  held : ∀ earlier c later, puts = earlier ++ c :: later →
    r.findSchema? c.schemaName = if c.name ∈ later.map ClassModel.name then none else some c
  unheld : ∀ schemaName, schemaName ∉ puts.map ClassModel.schemaName →
    r.findSchema? schemaName = none

theorem represents_empty : Represents [] empty :=
  ⟨consistent_empty, rfl, fun _ => rfl, fun earlier _ _ split => by simp at split, fun _ _ => rfl⟩

variable {r : Registry}

theorem eraseDups_append_singleton (names : List Bytes) (name : Bytes) :
    (names ++ [name]).eraseDups =
      if name ∈ names.eraseDups then names.eraseDups else names.eraseDups ++ [name] := by
  rw [List.eraseDups_append, List.removeAll]
  split
  · next again =>
    rw [List.filter_cons_of_neg (by simpa using List.mem_eraseDups.mp again)]
    simp
  · next new =>
    have unknown : name ∉ names := fun member => new (List.mem_eraseDups.mpr member)
    rw [List.filter_cons_of_pos (by simpa using unknown)]
    simp [List.eraseDups_cons]

/-- A new name comes last, and one that is taken stays where it is. -/
theorem Consistent.names_put (consistent : r.Consistent) (c : ClassModel) :
    (r.put c).classes.map ClassModel.name =
      if c.name ∈ r.classes.map ClassModel.name then r.classes.map ClassModel.name
      else r.classes.map ClassModel.name ++ [c.name] := by
  have taken (slot : Nat) : r.byName.lookup c.name = some slot ↔
      (r.classes.map ClassModel.name)[slot]? = some c.name := by
    rw [consistent.named, List.getElem?_map]
  unfold Registry.put
  split
  · next new =>
    have absent : c.name ∉ r.classes.map ClassModel.name := by
      intro member
      obtain ⟨slot, there⟩ := List.mem_iff_getElem?.mp member
      rw [(taken slot).mpr there] at new
      exact nomatch new
    rw [if_neg absent, List.map_append, List.map_singleton]
  · next slot found =>
    have there := (taken slot).mp found
    obtain ⟨inside, same⟩ := List.getElem?_eq_some_iff.mp there
    rw [if_pos (List.mem_of_getElem? there), List.map_set, ← same, List.set_getElem_self]

variable {puts : List ClassModel} {c : ClassModel}

/-- The class of another schema stays where it was, unless it is the one that has the name. -/
theorem Represents.held_put (represents : Represents puts r)
    (distinct : (puts.map ClassModel.schemaName).Nodup) {earlier later : List ClassModel}
    {d : ClassModel} (split : puts = earlier ++ d :: later) (other : d.schemaName ≠ c.schemaName) :
    (r.put c).findSchema? d.schemaName =
      if d.name ∈ (later ++ [c]).map ClassModel.name then none else some d := by
  have member : d.name ∈ (later ++ [c]).map ClassModel.name ↔
      d.name ∈ later.map ClassModel.name ∨ d.name = c.name := by simp
  simp only [member]
  rw [represents.consistent.findSchema?_put, if_neg other, represents.last,
    represents.held earlier d later split]
  by_cases lost : (lastNamed puts c.name).map ClassModel.schemaName = some d.schemaName
  · obtain ⟨e, found, same⟩ := Option.map_eq_some_iff.mp lost
    obtain ⟨member, named⟩ := mem_of_lastNamed found
    obtain rfl : e = d := List.inj_on_of_nodup_map distinct member (by simp [split]) same
    rw [if_pos lost, if_pos (.inr named)]
  · rw [if_neg lost]
    by_cases covered : d.name ∈ later.map ClassModel.name
    · rw [if_pos covered, if_pos (.inl covered)]
    · have differs : d.name ≠ c.name := by
        intro same
        rw [← same, split, lastNamed_of_split earlier covered] at lost
        exact lost rfl
      rw [if_neg covered, if_neg (not_or.mpr ⟨covered, differs⟩)]

/-- One more class, of a schema that has not come before. -/
theorem Represents.put (represents : Represents puts r)
    (distinct : ((puts ++ [c]).map ClassModel.schemaName).Nodup) :
    Represents (puts ++ [c]) (r.put c) := by
  rw [List.map_append, List.map_singleton, List.nodup_append] at distinct
  obtain ⟨distinct, -, apart⟩ := distinct
  have new : ∀ d, d ∈ puts → d.schemaName ≠ c.schemaName := fun d member =>
    apart _ (List.mem_map_of_mem member) _ (List.mem_singleton_self _)
  refine ⟨represents.consistent.put c, ?_, fun name => ?_, fun earlier d later split => ?_,
    fun schemaName outside => ?_⟩
  · rw [represents.consistent.names_put, represents.order, List.map_append, List.map_singleton,
      eraseDups_append_singleton]
  · rw [represents.consistent.find?_put, represents.last, lastNamed_append]
  · rcases List.eq_nil_or_concat' later with rfl | ⟨before, e, rfl⟩
    · obtain ⟨rfl, last⟩ := List.append_inj' split rfl
      cases last
      rw [represents.consistent.findSchema?_put, if_pos rfl]
      rfl
    · rw [← List.cons_append, ← List.append_assoc] at split
      obtain ⟨inside, last⟩ := List.append_inj' split rfl
      cases last
      exact represents.held_put distinct inside (new d (by simp [inside]))
  · rw [List.map_append, List.mem_append, not_or] at outside
    have other : schemaName ≠ c.schemaName := by simpa using outside.2
    rw [represents.consistent.findSchema?_put, if_neg other, represents.unheld _ outside.1,
      ite_self]

theorem represents_ofPuts (distinct : (puts.map ClassModel.schemaName).Nodup) :
    Represents puts (ofPuts puts) := by
  induction puts using List.reverseRecOn with
  | nil => exact represents_empty
  | append_singleton before c ih =>
    have earlier : (before.map ClassModel.schemaName).Nodup := by
      rw [List.map_append] at distinct
      exact (List.nodup_append.mp distinct).1
    unfold ofPuts at ih ⊢
    rw [List.foldl_append]
    exact (ih earlier).put distinct

/-- A schema has a class exactly if it came with one and no later class took the name. -/
theorem Represents.findSchema?_eq_some_iff (represents : Represents puts r) {schemaName : Bytes} :
    r.findSchema? schemaName = some c ↔ ∃ earlier later, puts = earlier ++ c :: later ∧
      c.schemaName = schemaName ∧ c.name ∉ later.map ClassModel.name := by
  constructor
  · intro found
    by_cases came : schemaName ∈ puts.map ClassModel.schemaName
    · obtain ⟨d, member, rfl⟩ := List.mem_map.mp came
      obtain ⟨earlier, later, split⟩ := List.append_of_mem member
      rw [represents.held earlier d later split] at found
      split at found
      · exact nomatch found
      · next alone =>
        cases found
        exact ⟨earlier, later, split, rfl, alone⟩
    · rw [represents.unheld schemaName came] at found
      exact nomatch found
  · rintro ⟨earlier, later, split, rfl, alone⟩
    rw [represents.held earlier c later split, if_neg alone]

/-- At every stage of a series of registrations in which no schema comes twice, the classes have
distinct names and come in the order in which their names first came, each the last one that was put
under its name; a name stands for this class, and for none if it did not come; a schema has the
class that was put for it as long as no later one took its name, and none otherwise; and a class
supersedes another one exactly if its name came before. -/
theorem registry_of_puts {puts before : List ClassModel}
    (distinct : (puts.map ClassModel.schemaName).Nodup) (stage : before <+: puts) :
    ((ofPuts before).classes.map ClassModel.name).Nodup ∧
    (ofPuts before).classes =
      (before.map ClassModel.name).eraseDups.filterMap (lastNamed before) ∧
    (∀ name, (ofPuts before).find? name = lastNamed before name) ∧
    (∀ name, (ofPuts before).find? name = none ↔ name ∉ before.map ClassModel.name) ∧
    (∀ schemaName c, (ofPuts before).findSchema? schemaName = some c ↔
      ∃ earlier later, before = earlier ++ c :: later ∧ c.schemaName = schemaName ∧
        c.name ∉ later.map ClassModel.name) ∧
    ∀ c, (ofPuts before).supersedes c = true ↔ c.name ∈ before.map ClassModel.name := by
  have represents : Represents before (ofPuts before) :=
    represents_ofPuts ((stage.sublist.map ClassModel.schemaName).nodup distinct)
  have consistent := represents.consistent
  refine ⟨?_, ?_, represents.last, fun name => ?_, fun _ _ => represents.findSchema?_eq_some_iff,
    fun c => ?_⟩
  · rw [represents.order]
    exact (Bytes.sublist_nodup_eraseDups _).2
  · have found : (ofPuts before).classes.filterMap ((ofPuts before).find? ∘ ClassModel.name) =
        (ofPuts before).classes.filterMap some :=
      List.filterMap_congr fun c member => consistent.find?_eq_some_iff.mpr ⟨member, rfl⟩
    rw [List.filterMap_some, ← List.filterMap_map, represents.order,
      show (ofPuts before).find? = lastNamed before from funext represents.last] at found
    exact found.symm
  · rw [represents.last, lastNamed, List.find?_eq_none]
    simp
  · rw [consistent.supersedes_iff, represents.order, List.mem_eraseDups]

def exPut (name schemaName : Bytes) : ClassModel :=
  ⟨name, schemaName, .record, [], false, false, [], none, [], [], [], []⟩

/-- The third class takes the name of the first one. -/
def exPuts : List ClassModel :=
  [exPut "Pet" "pet", exPut "Owner" "owner", exPut "Pet" "Pet", exPut "Visit" "visit"]

theorem registry_of_puts_exPuts : (exPuts.map ClassModel.schemaName).Nodup ∧
    exPuts.take 3 <+: exPuts ∧
    (ofPuts (exPuts.take 3)).classes = [exPut "Pet" "Pet", exPut "Owner" "owner"] ∧
    (ofPuts (exPuts.take 3)).find? "Visit" = none ∧
    (ofPuts (exPuts.take 3)).findSchema? "owner" = some (exPut "Owner" "owner") ∧
    (ofPuts (exPuts.take 3)).findSchema? "Pet" = some (exPut "Pet" "Pet") ∧
    (ofPuts (exPuts.take 3)).findSchema? "pet" = none ∧
    (ofPuts (exPuts.take 3)).supersedes (exPut "Owner" "keeper") = true := by
  have distinct : (exPuts.map ClassModel.schemaName).Nodup := by decide
  have stage : exPuts.take 3 <+: exPuts := List.take_prefix 3 exPuts
  obtain ⟨-, classes, -, absent, schemas, supersedes⟩ := registry_of_puts distinct stage
  refine ⟨distinct, stage, classes.trans (by decide), (absent _).mpr (by decide),
    (schemas _ _).mpr ⟨exPuts.take 1, [exPut "Pet" "Pet"], rfl, rfl, by decide⟩,
    (schemas _ _).mpr ⟨exPuts.take 2, [], rfl, rfl, by decide⟩, by decide,
    (supersedes _).mpr (by decide)⟩

end Registry

/-! ## Builds -/

namespace Build

variable {index : Index} {settings : ModelSettings}

theorem gives_buildEach_puts (schemas : List NamedSchema) (st : BuildState) :
    Gives (buildEach index settings schemas) st fun _ t => ∃ puts : List ClassModel,
      puts.map ClassModel.schemaName = schemas.map NamedSchema.name ∧
      t.registry = puts.foldl Registry.put st.registry := by
  induction schemas generalizing st with
  | nil => exact Gives.pure ⟨[], rfl, rfl⟩
  | cons s rest ih =>
    rw [buildEach]
    refine (gives_buildClass index settings s st).bind fun c u made => ?_
    obtain ⟨registry, -, built⟩ := made
    refine (gives_register c u).bind fun _ v registered => ?_
    obtain ⟨-, put, -⟩ := registered
    refine (ih v).mono fun _ t others => ?_
    obtain ⟨puts, names, left⟩ := others
    refine ⟨c :: puts, ?_, ?_⟩
    · rw [List.map_cons, List.map_cons, names, built.names.2]
    · rw [left, put, registry, List.foldl_cons]

/-- A build that succeeds has put one class for each schema, in order. -/
theorem registry_of_buildAll {after : BuildState}
    (built : exec (buildAll index settings) start = (.ok (), after)) :
    ∃ puts : List ClassModel, puts.map ClassModel.schemaName = index.names ∧
      after.registry = Registry.ofPuts puts := by
  obtain ⟨_, checked, found, run⟩ := ok_of_run_bind built
  obtain ⟨-, quiet⟩ := resolved_of_checkAll found
  have registry : checked.registry = Registry.empty := quiet.registry
  obtain ⟨puts, names, left⟩ := gives_buildEach_puts index.named checked () after run
  exact ⟨puts, names, by rw [left, registry, Registry.ofPuts]⟩

end Build

end HeaderForge
