import HeaderForge.Class.Registry
import HeaderForge.Proofs.Bytes.Entries
/-!
# The registry says whose a class is

A class that supersedes another one takes its slot and its name. `Registry.Consistent` is what keeps
the slots and the two tables of the registry together: class names lead to exactly the classes that
have them, and a schema only to a class that was built for it.

1. `slotFor` is where a class that is put comes, and `getElem?_put`, `lookup_byName_put` and
   `lookup_bySchema_put` are what putting it does to the slots and to the two tables.
2. `Consistent.put`: putting a class preserves consistency, also where it supersedes a class of
   another schema.
3. `find?_put` and `findSchema?_put` are what is found after a class is put.
4. Where classes are named after their schemas, `Registry.Faithful` says the converse, too: a schema
   has a class exactly if its class name stands for a class of its own.
-/

namespace HeaderForge

namespace Registry

/-- Class names lead to the classes that have them, and schemas to classes that are theirs. -/
structure Consistent (r : Registry) : Prop where
  named : ∀ name slot, r.byName.lookup name = some slot ↔
    r.classes[slot]?.map ClassModel.name = some name
  owned : ∀ schemaName slot, r.bySchema.lookup schemaName = some slot →
    r.classes[slot]?.map ClassModel.schemaName = some schemaName

theorem consistent_empty : empty.Consistent :=
  ⟨fun _ _ => by simp [empty], fun _ _ h => nomatch h⟩

/-- The slot that a class comes into. -/
def slotFor (r : Registry) (c : ClassModel) : Nat :=
  (r.byName.lookup c.name).getD r.classes.length

variable {r : Registry}

theorem slotFor_of_new {c : ClassModel} (new : r.byName.lookup c.name = none) :
    r.slotFor c = r.classes.length := by
  rw [slotFor, new, Option.getD_none]

theorem slotFor_of_taken {c : ClassModel} {slot : Nat}
    (taken : r.byName.lookup c.name = some slot) : r.slotFor c = slot := by
  rw [slotFor, taken, Option.getD_some]

theorem lookup_assign (name : Bytes) (slot : Nat) (table : List (Bytes × Nat)) (other : Bytes) :
    (assign name slot table).lookup other =
      if other = name then some slot else table.lookup other := by
  rw [assign, lookup_cons_if, lookup_filter]
  split <;> rfl

theorem lookup_byName_put (r : Registry) (c : ClassModel) (name : Bytes) :
    (r.put c).byName.lookup name =
      if name = c.name then some (r.slotFor c) else r.byName.lookup name := by
  unfold put
  split
  · next new => rw [slotFor_of_new new, lookup_cons_if]
  · next slot taken =>
    split
    · next own => rw [slotFor_of_taken taken, own, taken]
    · rfl

/-- The schema of the class that was in the slot has no slot any more. -/
theorem lookup_released (r : Registry) (slot : Nat) (c : ClassModel) {schemaName : Bytes}
    (other : schemaName ≠ c.schemaName) :
    (r.released slot c).lookup schemaName =
      if r.classes[slot]?.map ClassModel.schemaName = some schemaName then none
      else r.bySchema.lookup schemaName := by
  unfold released
  split
  · next earlier there =>
    rw [there, Option.map_some]
    by_cases own : earlier.schemaName = schemaName
    · rw [if_pos (by rw [own]; exact other), lookup_filter, if_pos own.symm, if_pos (by rw [own])]
    · have stays : some earlier.schemaName ≠ some schemaName := by simpa using own
      rw [if_neg stays]
      split
      · rw [lookup_filter, if_neg (Ne.symm own)]
      · rfl
  · next free => rw [free, Option.map_none, if_neg (by simp)]

theorem lookup_bySchema_put (r : Registry) (c : ClassModel) (schemaName : Bytes) :
    (r.put c).bySchema.lookup schemaName =
      if schemaName = c.schemaName then some (r.slotFor c)
      else if r.classes[r.slotFor c]?.map ClassModel.schemaName = some schemaName then none
      else r.bySchema.lookup schemaName := by
  unfold put
  split
  · next new =>
    rw [slotFor_of_new new, lookup_assign]
    simp
  · next slot taken =>
    rw [slotFor_of_taken taken, lookup_assign]
    split
    · rfl
    · next other => exact lookup_released r slot c other

theorem mem_put {c d : ClassModel} (h : d ∈ (r.put c).classes) : d = c ∨ d ∈ r.classes := by
  unfold put at h
  split at h
  · exact (List.mem_append.mp h).symm.imp_left List.mem_singleton.mp
  · exact (List.mem_or_eq_of_mem_set h).symm

namespace Consistent

variable (consistent : r.Consistent)
include consistent

/-- A slot holds the class that is put if it comes there, and what it held otherwise. -/
theorem getElem?_put (c : ClassModel) (slot : Nat) :
    (r.put c).classes[slot]? = if slot = r.slotFor c then some c else r.classes[slot]? := by
  unfold put
  split
  · next new =>
    rw [slotFor_of_new new, List.getElem?_append, List.getElem?_singleton]
    split
    · next before => rw [if_neg (Nat.ne_of_lt before)]
    · next after =>
      split
      · next first => rw [if_pos (by omega)]
      · next later => rw [if_neg (by omega), List.getElem?_eq_none (by omega)]
  · next taken there =>
    have inside : taken < r.classes.length := by
      have named := (consistent.named c.name taken).mp there
      by_cases short : taken < r.classes.length
      · exact short
      · rw [List.getElem?_eq_none (Nat.le_of_not_lt short)] at named
        exact nomatch named
    rw [slotFor_of_taken there, List.getElem?_set]
    by_cases here : slot = taken
    · rw [if_pos here.symm, if_pos inside, if_pos here]
    · rw [if_neg (Ne.symm here), if_neg here]

/-- What the slot of a class that is put held before, if anything, has the name of that class. -/
theorem slotFor_eq_iff (c : ClassModel) {slot : Nat} {d : ClassModel}
    (there : r.classes[slot]? = some d) : slot = r.slotFor c ↔ d.name = c.name := by
  have named : d.name = c.name ↔ r.byName.lookup c.name = some slot := by
    rw [consistent.named, there, Option.map_some, Option.some_inj]
  have inside : slot < r.classes.length := (List.getElem?_eq_some_iff.mp there).1
  rw [named, slotFor]
  cases r.byName.lookup c.name with
  | none => simp [Nat.ne_of_lt inside]
  | some taken => simp [eq_comm]

theorem put (c : ClassModel) : (r.put c).Consistent := by
  refine ⟨fun name slot => ?_, fun schemaName slot held => ?_⟩
  · rw [lookup_byName_put, consistent.getElem?_put]
    by_cases own : name = c.name
    · rw [if_pos own]
      by_cases here : slot = r.slotFor c
      · simp [here, own]
      · rw [if_neg here, own, Option.some_inj, ← consistent.named]
        refine ⟨fun same => absurd same.symm here, fun there => ?_⟩
        exact absurd (slotFor_of_taken there).symm here
    · rw [if_neg own, consistent.named]
      split
      · next here =>
        -- The class that leaves its slot has the name of the one that comes.
        refine ⟨fun there => ?_, fun there => ?_⟩
        · obtain ⟨d, found, named⟩ := Option.map_eq_some_iff.mp there
          exact absurd (named.symm.trans ((consistent.slotFor_eq_iff c found).mp here)) own
        · exact absurd (Option.some_inj.mp there).symm own
      · rfl
  · rw [lookup_bySchema_put] at held
    rw [consistent.getElem?_put]
    split at held
    · next own =>
      rw [if_pos (Option.some_inj.mp held).symm, Option.map_some, own]
    · split at held
      · exact nomatch held
      · next kept =>
        have there := consistent.owned schemaName slot held
        have other : slot ≠ r.slotFor c := by
          rintro rfl
          exact kept there
        rw [if_neg other, there]

/-- A class that is put is what its name stands for, and other names stand for what they did. -/
theorem find?_put (c : ClassModel) (name : Bytes) :
    (r.put c).find? name = if c.name = name then some c else r.find? name := by
  unfold find?
  rw [lookup_byName_put]
  by_cases own : name = c.name
  · rw [if_pos own, if_pos own.symm, Option.bind_some, consistent.getElem?_put, if_pos rfl]
  · rw [if_neg own, if_neg (Ne.symm own)]
    cases there : r.byName.lookup name with
    | none => rfl
    | some slot =>
      obtain ⟨d, found, named⟩ := Option.map_eq_some_iff.mp ((consistent.named name slot).mp there)
      have other : slot ≠ r.slotFor c := fun here =>
        own (named.symm.trans ((consistent.slotFor_eq_iff c found).mp here))
      rw [Option.bind_some, Option.bind_some, consistent.getElem?_put, if_neg other]

/-- A name stands for a class exactly if the class has it and is there. -/
theorem find?_eq_some_iff {name : Bytes} {c : ClassModel} :
    r.find? name = some c ↔ c ∈ r.classes ∧ c.name = name := by
  constructor
  · intro found
    obtain ⟨slot, there, inside⟩ := Option.bind_eq_some_iff.mp found
    have named := (consistent.named name slot).mp there
    rw [inside, Option.map_some, Option.some_inj] at named
    exact ⟨List.mem_of_getElem? inside, named⟩
  · rintro ⟨member, rfl⟩
    obtain ⟨slot, inside⟩ := List.mem_iff_getElem?.mp member
    have there := (consistent.named c.name slot).mpr (by rw [inside, Option.map_some])
    rw [find?, there, Option.bind_some, inside]

/-- A class supersedes another one exactly if its name is taken. -/
theorem supersedes_iff (c : ClassModel) :
    r.supersedes c = true ↔ c.name ∈ r.classes.map ClassModel.name := by
  rw [supersedes, Option.isSome_iff_exists, List.mem_iff_getElem?]
  refine exists_congr fun slot => ?_
  rw [consistent.named, List.getElem?_map]

/-! ## Classes of schemas -/

/-- The class of a schema was built for it. -/
theorem schemaName_of_findSchema? {schemaName : Bytes} {c : ClassModel}
    (h : r.findSchema? schemaName = some c) : c ∈ r.classes ∧ c.schemaName = schemaName := by
  obtain ⟨slot, held, found⟩ := Option.bind_eq_some_iff.mp h
  have own := consistent.owned schemaName slot held
  rw [found, Option.map_some, Option.some_inj] at own
  exact ⟨List.mem_of_getElem? found, own⟩

theorem find?_of_findSchema? {schemaName : Bytes} {c : ClassModel}
    (h : r.findSchema? schemaName = some c) : r.find? c.name = some c :=
  consistent.find?_eq_some_iff.mpr ⟨(consistent.schemaName_of_findSchema? h).1, rfl⟩

/-- A class that is put is found for its schema. Another schema loses its class if the slot is taken
by the new one, and keeps it otherwise. -/
theorem findSchema?_put (c : ClassModel) (schemaName : Bytes) :
    (r.put c).findSchema? schemaName =
      if schemaName = c.schemaName then some c
      else if (r.find? c.name).map ClassModel.schemaName = some schemaName then none
      else r.findSchema? schemaName := by
  have slot : r.classes[r.slotFor c]? = r.find? c.name := by
    rw [find?, slotFor]
    cases r.byName.lookup c.name with
    | none => simp
    | some slot => rfl
  unfold findSchema?
  rw [lookup_bySchema_put, ← slot]
  split
  · rw [Option.bind_some, consistent.getElem?_put, if_pos rfl]
  · split
    · rfl
    · next kept =>
      cases held : r.bySchema.lookup schemaName with
      | none => rfl
      | some slot =>
        have there := consistent.owned schemaName slot held
        have other : slot ≠ r.slotFor c := by
          rintro rfl
          exact kept there
        rw [Option.bind_some, Option.bind_some, consistent.getElem?_put, if_neg other]

/-- A class that supersedes none takes no schema's class away. -/
theorem findSchema?_put_of_free {c : ClassModel} (free : r.find? c.name = none)
    (schemaName : Bytes) : (r.put c).findSchema? schemaName =
      if schemaName = c.schemaName then some c else r.findSchema? schemaName := by
  rw [consistent.findSchema?_put, free, Option.map_none]
  simp

end Consistent

/-! ## Classes that are named after their schemas -/

/-- Every class is named after its schema, and its schema is said to hold it. -/
structure Faithful (className : Bytes → Bytes) (r : Registry) : Prop where
  consistent : r.Consistent
  named : ∀ c, c ∈ r.classes → c.name = className c.schemaName
  held : ∀ name c, r.find? name = some c → r.findSchema? c.schemaName = some c

variable {className : Bytes → Bytes}

theorem faithful_empty : empty.Faithful className :=
  ⟨consistent_empty, List.forall_mem_nil _, fun _ _ h => nomatch h⟩

theorem Faithful.put (faithful : r.Faithful className) {c : ClassModel}
    (own : c.name = className c.schemaName) : (r.put c).Faithful className := by
  refine ⟨faithful.consistent.put c, fun d hd => ?_, fun name d found => ?_⟩
  · rcases mem_put hd with rfl | before
    · exact own
    · exact faithful.named d before
  · rw [faithful.consistent.find?_put] at found
    rw [faithful.consistent.findSchema?_put]
    split at found
    · cases found
      exact if_pos rfl
    · next other =>
      -- The class stays. It is named after its schema, which is then not that of the new class.
      obtain ⟨there, named⟩ := faithful.consistent.find?_eq_some_iff.mp found
      have after := faithful.named d there
      have apart : d.schemaName ≠ c.schemaName := by
        intro same
        rw [same, ← own, named] at after
        exact other after.symm
      have kept : (r.find? c.name).map ClassModel.schemaName ≠ some d.schemaName := by
        intro lost
        obtain ⟨e, taken, same⟩ := Option.map_eq_some_iff.mp lost
        obtain ⟨member, name⟩ := faithful.consistent.find?_eq_some_iff.mp taken
        have before := faithful.named e member
        rw [same, ← after, named, name] at before
        exact other before
      rw [if_neg apart, if_neg kept, faithful.held name d found]

/-- A schema has a class exactly if its class name stands for a class of its own. -/
theorem Faithful.findSchema?_eq_some_iff (faithful : r.Faithful className) {schemaName : Bytes}
    {c : ClassModel} : r.findSchema? schemaName = some c ↔
      r.find? (className schemaName) = some c ∧ c.schemaName = schemaName := by
  constructor
  · intro h
    obtain ⟨there, own⟩ := faithful.consistent.schemaName_of_findSchema? h
    refine ⟨?_, own⟩
    rw [← own, ← faithful.named c there]
    exact faithful.consistent.find?_of_findSchema? h
  · rintro ⟨found, rfl⟩
    exact faithful.held _ c found

end Registry

end HeaderForge
