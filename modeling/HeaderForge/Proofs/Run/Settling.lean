import HeaderForge.Proofs.Cache
import HeaderForge.Run
/-!
# What the steps of a run settle

Each schema of a document and each name that is gone from it has one step in a run, and only this
step is about its entry on record and lists it as failed.

1. `Run.entryAfter` is what the record is to say of a name, given the failures that are listed.
2. `Run.HeaderFails` and `Run.RemovalFails` say when a step fails.
3. `Run.Settles` is what steps settle. `Run.gives_generateSchema` and `Run.gives_removeStale` are
   the single steps, and `Run.gives_foldlM` is any number of them, one for each of different names.
-/

namespace HeaderForge

namespace RunReport

@[simp] theorem failed_note (r : RunReport) (path : Bytes) (outcome : WriteOutcome) :
    (r.note path outcome).failed = r.failed := by
  cases outcome <;> rfl

@[simp] theorem skipped_note (r : RunReport) (path : Bytes) (outcome : WriteOutcome) :
    (r.note path outcome).skipped = r.skipped := by
  cases outcome <;> rfl

end RunReport

namespace Run

open Work

/-! ## Entries -/

/-- What the record says of a name after a run with these failures. A schema of the document that
has a class has the hash of what its header depends on, unless it failed. A name that is gone has
the entry that it had, if its file could not be removed. -/
def entryAfter (c : Context) (before : List (Bytes × Bytes)) (failures : List FileFailure)
    (name : Bytes) : Option Bytes :=
  match c.index.find? name with
  | some s =>
    if (c.registry.findSchema? name).isSome ∧ name ∉ failures.map FileFailure.schemaName then
      some (c.hash s)
    else none
  | none => if name ∈ failures.map FileFailure.schemaName then before.lookup name else none

variable {c : Context} {p q r : Progress} {before : List (Bytes × Bytes)}
  {failures others : List FileFailure} {name : Bytes}

section

variable {s : NamedSchema} (declared : c.index.find? s.name = some s)

include declared

theorem entryAfter_of_superseded (none : c.registry.findSchema? s.name = none) :
    entryAfter c before failures s.name = .none := by
  simp [entryAfter, declared, none]

theorem entryAfter_of_failed (failed : s.name ∈ failures.map FileFailure.schemaName) :
    entryAfter c before failures s.name = none := by
  rw [entryAfter, declared]
  exact if_neg fun good => good.2 failed

theorem entryAfter_of_class (class_ : (c.registry.findSchema? s.name).isSome) :
    entryAfter c before [] s.name = some (c.hash s) := by
  rw [entryAfter, declared]
  exact if_pos ⟨class_, List.not_mem_nil⟩

end

theorem entryAfter_of_kept (gone : c.index.find? name = none)
    (failed : name ∈ failures.map FileFailure.schemaName) :
    entryAfter c before failures name = before.lookup name := by
  rw [entryAfter, gone]
  exact if_pos failed

theorem entryAfter_of_gone (gone : c.index.find? name = none)
    (fine : name ∉ failures.map FileFailure.schemaName) :
    entryAfter c before failures name = none := by
  rw [entryAfter, gone]
  exact if_neg fine

theorem hash_ne_nil (c : Context) (s : NamedSchema) : c.hash s ≠ [] := by
  simp [Context.hash, Index.dependenceHash, Hash.text, hexText]

theorem entryAfter_ne_nil {hash : Bytes}
    (proper : ∀ name hash, before.lookup name = some hash → hash ≠ [])
    (h : entryAfter c before failures name = some hash) : hash ≠ [] := by
  unfold entryAfter at h
  split at h
  · next s _ =>
    split at h
    · exact Option.some.inj h ▸ hash_ne_nil c s
    · exact nomatch h
  · split at h
    · exact proper name hash h
    · exact nomatch h

/-- Failures of other names do not matter. -/
theorem entryAfter_append_left (apart : name ∉ others.map FileFailure.schemaName) :
    entryAfter c before (failures ++ others) name = entryAfter c before failures name := by
  have same : name ∈ (failures ++ others).map FileFailure.schemaName ↔
      name ∈ failures.map FileFailure.schemaName := by
    rw [List.map_append, List.mem_append, or_iff_left apart]
  simp only [entryAfter, same]

theorem entryAfter_append_right (apart : name ∉ failures.map FileFailure.schemaName) :
    entryAfter c before (failures ++ others) name = entryAfter c before others name := by
  have same : name ∈ (failures ++ others).map FileFailure.schemaName ↔
      name ∈ others.map FileFailure.schemaName := by
    rw [List.map_append, List.mem_append, or_iff_right apart]
  simp only [entryAfter, same]

/-! ## Settled names -/

/-- Whether steps that list these failures and skip these schemas have made of each name's entry
what it is after the run, starting from the one that was on record, and are about no other name. -/
structure Settles (c : Context) (names : List Bytes) (failures : List FileFailure)
    (skipped : List Bytes) (p q : Progress) : Prop where
  cache : p.cache.ChangesOnly names q.cache
  lists : q.report.failed = p.report.failed ++ failures
  skips : q.report.skipped = p.report.skipped ++ skipped
  failed : ∀ name, name ∈ failures.map FileFailure.schemaName → name ∈ names
  entry : ∀ name, name ∈ names →
    p.cache.pending.lookup name = p.cache.previous.lookup name →
    q.cache.pending.lookup name = entryAfter c p.cache.previous failures name
  current : ∀ name, name ∈ skipped → name ∈ names ∧
    ∃ s, c.index.find? name = some s ∧
      entryAfter c p.cache.previous failures name = some (c.hash s)

theorem Settles.nil (c : Context) (p : Progress) : Settles c [] [] [] p p where
  cache := .refl [] p.cache
  lists := (List.append_nil _).symm
  skips := (List.append_nil _).symm
  failed _ member := nomatch member
  entry _ member := nomatch member
  current _ member := nomatch member

/-- Steps for different names do not disturb each other. -/
theorem Settles.append {names more : List Bytes} {skipped skipped' : List Bytes}
    (first : Settles c names failures skipped p q) (second : Settles c more others skipped' q r)
    (disjoint : names.Disjoint more) :
    Settles c (names ++ more) (failures ++ others) (skipped ++ skipped') p r := by
  have same : q.cache.previous = p.cache.previous := first.cache.same.previous
  have inFirst : ∀ name, name ∈ names → entryAfter c p.cache.previous (failures ++ others) name =
      entryAfter c p.cache.previous failures name := by
    intro name member
    exact entryAfter_append_left fun later => disjoint member (second.failed name later)
  have inSecond : ∀ name, name ∈ more → entryAfter c p.cache.previous (failures ++ others) name =
      entryAfter c p.cache.previous others name := by
    intro name member
    exact entryAfter_append_right fun earlier => disjoint (first.failed name earlier) member
  refine ⟨first.cache.append second.cache, ?_, ?_, ?_, ?_, ?_⟩
  · rw [second.lists, first.lists, List.append_assoc]
  · rw [second.skips, first.skips, List.append_assoc]
  · intro name member
    rw [List.map_append] at member
    exact List.mem_append.mpr
      ((List.mem_append.mp member).imp (first.failed name) (second.failed name))
  · intro name member start
    rcases List.mem_append.mp member with here | later
    · rw [inFirst name here, ← first.entry name here start]
      exact second.cache.other name fun later => disjoint here later
    · -- The first steps have left the entry as it was on record.
      have untouched := first.cache.other name fun here => disjoint here later
      rw [inSecond name later, ← same]
      exact second.entry name later (by rw [untouched, start, same])
  · intro name member
    rcases List.mem_append.mp member with here | later
    · obtain ⟨inNames, s, found, entry⟩ := first.current name here
      exact ⟨List.mem_append_left more inNames, s, found, (inFirst name inNames).trans entry⟩
    · obtain ⟨inMore, s, found, entry⟩ := second.current name later
      rw [same] at entry
      exact ⟨List.mem_append_right names inMore, s, found, (inSecond name inMore).trans entry⟩

/-! ## Single steps -/

/-- Whether no text that can be composed for a class can be written to a path. -/
def WriteFails (c : Context) (model : ClassModel) (name path : Bytes) (w : Workspace) : Prop :=
  ∀ body, Header.compose c.style c.render model = .ok body →
    ∃ kind u, (Owned.write markers path name body).run.run w = (.error kind, u)

/-- Whether the header of a schema with a class is out of date, and cannot be written. -/
def HeaderFails (c : Context) (s : NamedSchema) (cache : Cache) (w : Workspace) : Prop :=
  ∃ model path v u, c.registry.findSchema? s.name = some model ∧
    (locateTarget c cache s.name).run.run w = (.ok path, v) ∧
    (isUpToDate cache path s.name (c.hash s)).run.run v = (.ok false, u) ∧
    WriteFails c model s.name path u

/-- Whether the header of a name that is gone is there and cannot be removed. -/
def RemovalFails (c : Context) (name : Bytes) (w : Workspace) : Prop :=
  ∃ kind u, (Owned.remove markers (c.target name) name).run.run w = (.error kind, u)

/-- A step that takes the entry out, of a name that is to have none. -/
theorem settles_drop (cache : q.cache = p.cache.drop name)
    (failed : q.report.failed = p.report.failed) (skipped : q.report.skipped = p.report.skipped)
    (none : entryAfter c p.cache.previous [] name = none) : Settles c [name] [] [] p q where
  cache := cache ▸ .drop p.cache name
  lists := failed.trans (List.append_nil _).symm
  skips := skipped.trans (List.append_nil _).symm
  failed _ member := nomatch member
  entry other member _ := by
    rw [List.mem_singleton.mp member, cache, Cache.lookup_drop, none]
  current _ member := nomatch member

section

variable {s : NamedSchema} (declared : c.index.find? s.name = some s)

include declared

theorem settles_failed (path : Bytes) (kind : FailureKind) :
    Settles c [s.name] [⟨s.name, path, kind⟩] [] p (p.failed s.name path kind) where
  cache := .drop p.cache s.name
  lists := rfl
  skips := (List.append_nil _).symm
  failed _ member := member
  entry name member _ := by
    rw [List.mem_singleton.mp member, entryAfter_of_failed declared List.mem_cons_self]
    exact Cache.lookup_drop p.cache s.name
  current _ member := nomatch member

theorem settles_commit (class_ : (c.registry.findSchema? s.name).isSome) (path : Bytes)
    (outcome : WriteOutcome) :
    Settles c [s.name] [] [] p (p.commit s.name (c.hash s) path outcome) where
  cache := .commit p.cache s.name (c.hash s)
  lists := (RunReport.failed_note _ _ _).trans (List.append_nil _).symm
  skips := (RunReport.skipped_note _ _ _).trans (List.append_nil _).symm
  failed _ member := nomatch member
  entry name member _ := by
    rw [List.mem_singleton.mp member, entryAfter_of_class declared class_]
    exact Cache.lookup_commit p.cache s.name (c.hash s)
  current _ member := nomatch member

/-- A schema is skipped where its hash is the one on record, so the entry may stay. -/
theorem settles_skip (class_ : (c.registry.findSchema? s.name).isSome)
    (recorded : p.cache.previous.lookup s.name = some (c.hash s)) :
    Settles c [s.name] [] [s.name] p { p with report := p.report.noteSkipped s.name } where
  cache := .refl [s.name] p.cache
  lists := (List.append_nil _).symm
  skips := rfl
  failed _ member := nomatch member
  entry name member start := by
    rw [List.mem_singleton.mp member] at start ⊢
    rw [entryAfter_of_class declared class_, ← recorded]
    exact start
  current name member := by
    rw [List.mem_singleton.mp member]
    exact ⟨List.mem_cons_self, s, declared, entryAfter_of_class declared class_⟩

theorem gives_writeHeader (model : ClassModel) (class_ : (c.registry.findSchema? s.name).isSome)
    (path : Bytes) (p : Progress) (w : Workspace) :
    Gives (writeHeader c model s.name (c.hash s) path p) w fun q _ =>
      ∃ failures skipped, Settles c [s.name] failures skipped p q ∧
        (s.name ∈ failures.map FileFailure.schemaName ↔ WriteFails c model s.name path w) := by
  unfold writeHeader
  split
  · next kind refused =>
    refine gives_after_write fun _ _ => Gives.pure ⟨_, _, settles_failed declared path kind, ?_⟩
    exact iff_of_true List.mem_cons_self fun body composed => nomatch refused.symm.trans composed
  · next body composed =>
    refine gives_attempt fun outcome v attempted => ?_
    split
    · next kind =>
      refine Gives.pure ⟨_, _, settles_failed declared path kind, ?_⟩
      refine iff_of_true List.mem_cons_self fun other composed' => ?_
      cases composed.symm.trans composed'
      exact ⟨kind, v, attempted⟩
    · next outcome =>
      refine (Gives.any _ v).bind fun _ _ _ => Gives.pure ?_
      refine ⟨_, _, settles_commit declared class_ path outcome, ?_⟩
      refine iff_of_false List.not_mem_nil fun fails => ?_
      obtain ⟨kind, u, refused⟩ := fails body composed
      exact nomatch attempted.symm.trans refused

end

theorem gives_isUpToDate (cache : Cache) (target name hash : Bytes) (w : Workspace) :
    Gives (isUpToDate cache target name hash) w fun fresh _ =>
      fresh = true → cache.previous.lookup name = some hash := by
  refine gives_tree ?_
  split
  · refine (Cache.gives_isStale cache name hash w).bind fun stale _ recorded => Gives.pure ?_
    exact fun fresh => recorded (Bool.not_eq_eq_eq_not.mp fresh)
  · exact Gives.pure fun fresh => nomatch fresh

/-- The step of a schema settles it by whichever way it ends, and lists it if it fails. -/
theorem gives_generateSchema {s : NamedSchema} (declared : c.index.find? s.name = some s)
    (p : Progress) (w : Workspace) :
    Gives (generateSchema c s p) w fun q _ =>
      ∃ failures skipped, Settles c [s.name] failures skipped p q ∧
        (s.name ∈ failures.map FileFailure.schemaName ↔ HeaderFails c s p.cache w) := by
  unfold generateSchema
  split
  · next superseded =>
    have none : entryAfter c p.cache.previous [] s.name = none :=
      entryAfter_of_superseded declared superseded
    refine Gives.pure ⟨[], [], settles_drop rfl rfl rfl none, ?_⟩
    refine iff_of_false List.not_mem_nil fun ⟨model, _, _, _, found, _⟩ => ?_
    exact nomatch superseded.symm.trans found
  · next model found =>
    have class_ : (c.registry.findSchema? s.name).isSome := Option.isSome_of_eq_some found
    refine (Gives.run (locateTarget c p.cache s.name) w).bind fun path v located => ?_
    refine (Gives.run (isUpToDate p.cache path s.name (c.hash s)) v).bind fun fresh u asked => ?_
    -- The step has located the header and asked for its age once, as `HeaderFails` does.
    have fails : HeaderFails c s p.cache w ↔ fresh = false ∧ WriteFails c model s.name path u := by
      constructor
      · rintro ⟨model', path', v', u', found', located', asked', fails⟩
        cases found.symm.trans found'
        cases located.symm.trans located'
        cases asked.symm.trans asked'
        exact ⟨rfl, fails⟩
      · rintro ⟨rfl, fails⟩
        exact ⟨model, path, v, u, found, located, asked, fails⟩
    rw [fails]
    split
    · next upToDate =>
      have recorded := gives_isUpToDate p.cache path s.name (c.hash s) v fresh u asked upToDate
      refine Gives.pure ⟨[], [s.name], settles_skip declared class_ recorded, ?_⟩
      exact iff_of_false List.not_mem_nil fun fails => nomatch upToDate.symm.trans fails.1
    · next outdated =>
      have outdated : fresh = false := Bool.eq_false_iff.mpr outdated
      simp only [outdated, true_and]
      exact gives_writeHeader declared model class_ path p u

/-- A file that could not be removed keeps the entry of its name. -/
theorem settles_kept (gone : c.index.find? name = none) (path : Bytes) (kind : FailureKind) :
    Settles c [name] [⟨name, path, kind⟩] [] p
      { p with report := p.report.noteFailed name path kind } where
  cache := .refl [name] p.cache
  lists := rfl
  skips := (List.append_nil _).symm
  failed _ member := member
  entry other member start := by
    rw [List.mem_singleton.mp member] at start ⊢
    rw [entryAfter_of_kept gone List.mem_cons_self]
    exact start
  current _ member := nomatch member

/-- The step of a name that is gone settles it, and lists it if its file cannot be removed. -/
theorem gives_removeStale (gone : c.index.find? name = none) (p : Progress) (w : Workspace) :
    Gives (removeStale c name p) w fun q _ =>
      ∃ failures skipped, Settles c [name] failures skipped p q ∧
        (name ∈ failures.map FileFailure.schemaName ↔ RemovalFails c name w) := by
  have none : entryAfter c p.cache.previous [] name = none :=
    entryAfter_of_gone gone List.not_mem_nil
  refine gives_attempt fun outcome v attempted => ?_
  split
  · next kind =>
    refine Gives.pure ⟨_, _, settles_kept gone (c.target name) kind, ?_⟩
    exact iff_of_true List.mem_cons_self ⟨kind, v, attempted⟩
  · next removed =>
    have fine : ¬ RemovalFails c name w := fun ⟨kind, u, refused⟩ =>
      nomatch attempted.symm.trans refused
    have listed : name ∈ [].map FileFailure.schemaName ↔ RemovalFails c name w :=
      iff_of_false List.not_mem_nil fine
    split
    · refine gives_after_write fun _ _ => Gives.pure ?_
      exact ⟨[], [], settles_drop rfl rfl rfl none, listed⟩
    · exact Gives.pure ⟨[], [], settles_drop rfl rfl rfl none, listed⟩

/-! ## One step after the other -/

/-- Whether a name is listed if and only if its step fails when it is its turn, after the steps of
the names before it. -/
def ListsAtTurn {α : Type} (steps : List α → Progress → Work Progress) (nameOf : α → Bytes)
    (fails : α → Progress → Workspace → Prop) (items : List α) (failures : List FileFailure)
    (p : Progress) (w : Workspace) : Prop :=
  ∀ front a back, items = front ++ a :: back →
    ∃ q u, (steps front p).run.run w = (.ok q, u) ∧
      (nameOf a ∈ failures.map FileFailure.schemaName ↔ fails a q u)

/-- Steps that settle one name each settle all of them if the names are different. -/
theorem gives_foldlM {α : Type} (nameOf : α → Bytes) {step : Progress → α → Work Progress}
    {fails : α → Progress → Workspace → Prop} {items : List α}
    (one : ∀ a, a ∈ items → ∀ p w, Gives (step p a) w fun q _ =>
      ∃ failures skipped, Settles c [nameOf a] failures skipped p q ∧
        (nameOf a ∈ failures.map FileFailure.schemaName ↔ fails a p w))
    (distinct : (items.map nameOf).Nodup) (p : Progress) (w : Workspace) :
    Gives (items.foldlM step p) w fun q _ =>
      ∃ failures skipped, Settles c (items.map nameOf) failures skipped p q ∧
        ListsAtTurn (fun items p => items.foldlM step p) nameOf fails items failures p w := by
  induction items generalizing p w with
  | nil =>
    refine Gives.pure ⟨[], [], Settles.nil c p, fun front a back split => ?_⟩
    exact absurd split.symm (by simp)
  | cons a rest ih =>
    obtain ⟨apart, distinct⟩ := List.nodup_cons.mp distinct
    rw [List.foldlM_cons]
    refine (Gives.run (step p a) w).bind fun q v ran => ?_
    obtain ⟨failures, skipped, first, listed⟩ := one a List.mem_cons_self p w q v ran
    refine (ih (fun b h => one b (List.mem_cons_of_mem a h)) distinct q v).mono ?_
    rintro r u ⟨others, skipped', later, turns⟩
    refine ⟨_, _, first.append later (List.singleton_disjoint.mpr apart), ?_⟩
    intro front b back split
    rw [List.map_append, List.mem_append]
    cases front with
    | nil =>
      cases split
      refine ⟨p, w, rfl, ?_⟩
      rw [or_iff_left fun h => apart (later.failed _ h)]
      exact listed
    | cons x front =>
      obtain ⟨rfl, later'⟩ := List.cons.inj split
      obtain ⟨r', v', reached, listed'⟩ := turns front b back later'
      have different : nameOf b ∉ failures.map FileFailure.schemaName := by
        intro h
        have same := List.mem_singleton.mp (first.failed _ h)
        exact apart (same ▸ List.mem_map_of_mem (later' ▸ List.mem_append_right front
          List.mem_cons_self))
      refine ⟨r', v', ?_, ?_⟩
      · dsimp only
        rw [List.foldlM_cons, run_bind, ran]
        exact reached
      · rw [or_iff_right different]
        exact listed'

theorem generateSchemas_eq_foldlM (c : Context) (schemas : List NamedSchema) (p : Progress) :
    generateSchemas c schemas p = schemas.foldlM (fun p s => generateSchema c s p) p := by
  induction schemas generalizing p with
  | nil => rfl
  | cons s rest ih =>
    rw [List.foldlM_cons]
    exact bind_congr ih

theorem removeAllStale_eq_foldlM (c : Context) (names : List Bytes) (p : Progress) :
    removeAllStale c names p = names.foldlM (fun p name => removeStale c name p) p := by
  induction names generalizing p with
  | nil => rfl
  | cons name rest ih =>
    rw [List.foldlM_cons]
    exact bind_congr ih

theorem gives_generateSchemas {schemas : List NamedSchema}
    (declared : ∀ s, s ∈ schemas → c.index.find? s.name = some s)
    (distinct : (schemas.map NamedSchema.name).Nodup) (p : Progress) (w : Workspace) :
    Gives (generateSchemas c schemas p) w fun q _ =>
      ∃ failures skipped, Settles c (schemas.map NamedSchema.name) failures skipped p q ∧
        ListsAtTurn (generateSchemas c) NamedSchema.name
          (fun s q u => HeaderFails c s q.cache u) schemas failures p w := by
  simp only [ListsAtTurn, generateSchemas_eq_foldlM]
  exact gives_foldlM _ (fun s h p w => gives_generateSchema (declared s h) p w) distinct p w

theorem gives_removeAllStale {names : List Bytes}
    (gone : ∀ name, name ∈ names → c.index.find? name = none) (distinct : names.Nodup)
    (p : Progress) (w : Workspace) :
    Gives (removeAllStale c names p) w fun q _ =>
      ∃ failures skipped, Settles c names failures skipped p q ∧
        ListsAtTurn (removeAllStale c) id (fun name _ u => RemovalFails c name u) names failures p
          w := by
  have settles := gives_foldlM id (fun name h p w => gives_removeStale (gone name h) p w)
    (by rwa [List.map_id]) p w
  simp only [ListsAtTurn, removeAllStale_eq_foldlM]
  simpa only [ListsAtTurn, List.map_id] using settles

/-- The names that are listed are those whose steps fail. -/
theorem ListsAtTurn.mem_iff {α : Type} {steps : List α → Progress → Work Progress}
    {nameOf : α → Bytes} {fails : α → Progress → Workspace → Prop} {items : List α}
    {w : Workspace} (turns : ListsAtTurn steps nameOf fails items failures p w)
    (only : ∀ name, name ∈ failures.map FileFailure.schemaName → name ∈ items.map nameOf) :
    name ∈ failures.map FileFailure.schemaName ↔
      ∃ front a back q u, items = front ++ a :: back ∧
        (steps front p).run.run w = (.ok q, u) ∧ nameOf a = name ∧ fails a q u := by
  constructor
  · intro listed
    obtain ⟨a, member, rfl⟩ := List.mem_map.mp (only name listed)
    obtain ⟨front, back, split⟩ := List.append_of_mem member
    obtain ⟨q, u, ran, turn⟩ := turns front a back split
    exact ⟨front, a, back, q, u, split, ran, rfl, turn.mp listed⟩
  · rintro ⟨front, a, back, q, u, split, ran, rfl, fails⟩
    obtain ⟨q', u', ran', turn⟩ := turns front a back split
    cases ran.symm.trans ran'
    exact turn.mpr fails

end Run

end HeaderForge
