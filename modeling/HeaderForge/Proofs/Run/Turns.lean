import HeaderForge.Proofs.Run.Rest
/-!
# The turns of a run

In a run each schema of the document has its turn, at which its header is skipped or brought up to
date at some path, or fails. A report names the schemas that were skipped and the paths of the
others. To say what became of the header of a schema, a run is told here turn by turn.

1. `Run.takeTurn` is a turn with nothing noted, and `Run.Progress.after` notes it. By
   `Run.generateSchemas_eq` the turns of a run, noted one after the other, are the run.
2. `Run.latest` is the last turn of a kind, and `Run.lookup_afterAll` says that a run leaves the
   hash of the last turn that brought the header of a schema up to date.
3. `Run.mem_skipped_afterAll`: the schemas that a report has as skipped are those of such turns.
-/

namespace HeaderForge

namespace Run

open Work

/-! ## Turns -/

/-- What becomes of the header of a schema at its turn. -/
inductive Turn where
  /-- The schema has no class, and so no header. -/
  | superseded
  | skipped (path : Bytes)
  | failed (path : Bytes) (kind : FailureKind)
  /-- The header was created, was updated, or was found unchanged. -/
  | delivered (path : Bytes) (outcome : WriteOutcome)
deriving DecidableEq, Repr

/-- Where a header is after the turn that brought it up to date. -/
def Turn.delivered? : Turn → Option Bytes
  | delivered path _ => some path
  | _ => none

/-- The turn of a schema in a run. -/
structure Visit where
  name : Bytes
  /-- The hash of everything that the header depends on in the run. -/
  hash : Bytes
  /-- Where the header is generated unless it was moved. -/
  target : Bytes
  turn : Turn
deriving DecidableEq, Repr

variable {c : Context}

def Context.visit (c : Context) (s : NamedSchema) (turn : Turn) : Visit :=
  ⟨s.name, c.hash s, c.target s.name, turn⟩

/-- Brings the header of a schema up to date, and notes nothing. -/
def takeTurn (c : Context) (s : NamedSchema) (cache : Cache) : Work Turn := do
  match c.registry.findSchema? s.name with
  | none => return .superseded
  | some model =>
    let path ← locateTarget c cache s.name
    if ← isUpToDate cache path s.name (c.hash s) then return .skipped path
    else
      match Header.compose c.style c.render model with
      | .error kind =>
        Work.error tag (row [s.name, ": ", kind.message])
        return .failed path kind
      | .ok body =>
        match ← Work.attempt (Owned.write markers path s.name body) with
        | .error kind => return .failed path kind
        | .ok outcome =>
          logOutcome s.name path outcome
          return .delivered path outcome

/-- Notes a turn. -/
def Progress.after (p : Progress) (v : Visit) : Progress :=
  match v.turn with
  | .superseded => p.drop v.name
  | .skipped _ => { p with report := p.report.noteSkipped v.name }
  | .failed path kind => p.failed v.name path kind
  | .delivered path outcome => p.commit v.name v.hash path outcome

def Progress.afterAll (p : Progress) (vs : List Visit) : Progress := vs.foldl Progress.after p

/-- The turns of these schemas. -/
def visits (c : Context) : List NamedSchema → Progress → Work (List Visit)
  | [], _ => return []
  | s :: rest, p => do
    let v := c.visit s (← takeTurn c s p.cache)
    return v :: (← visits c rest (p.after v))

theorem generateSchema_eq (c : Context) (s : NamedSchema) (p : Progress) :
    generateSchema c s p = (do return p.after (c.visit s (← takeTurn c s p.cache))) := by
  unfold generateSchema takeTurn
  cases c.registry.findSchema? s.name with
  | none => rfl
  | some model =>
    simp only [bind_assoc]
    refine bind_congr fun path => ?_
    refine bind_congr fun fresh => ?_
    cases fresh with
    | true => rfl
    | false =>
      unfold writeHeader
      cases Header.compose c.style c.render model with
      | error kind => simp [Context.visit, Progress.after]
      | ok body =>
        simp only [Bool.false_eq_true, if_false, bind_assoc]
        refine bind_congr fun outcome => ?_
        cases outcome <;> simp [Context.visit, Progress.after]

/-- The schemas have their turns, and all of them are noted. -/
theorem generateSchemas_eq (c : Context) (schemas : List NamedSchema) (p : Progress) :
    generateSchemas c schemas p = (do return p.afterAll (← visits c schemas p)) := by
  induction schemas generalizing p with
  | nil => rfl
  | cons s rest ih =>
    simp only [generateSchemas, visits, generateSchema_eq, bind_assoc, pure_bind, ih]
    rfl

/-! ## The last turn of a kind -/

def latest {α : Type} (kind : α → Bool) (vs : List α) : Option α := (vs.filter kind).getLast?

/-- Whether the header of a schema was brought up to date. -/
def Visit.delivers (v : Visit) (name : Bytes) : Bool := v.name = name && v.turn.delivered?.isSome

/-- Whether the header of a schema was brought up to date at a path. -/
def Visit.deliversAt (v : Visit) (name path : Bytes) : Bool :=
  v.name = name && v.turn.delivered? = some path

section

variable {α β : Type} {kind : α → Bool} {vs : List α} {v : α}

theorem latest_append (kind : α → Bool) (vs ws : List α) :
    latest kind (vs ++ ws) = (latest kind ws).or (latest kind vs) := by
  rw [latest, List.filter_append, List.getLast?_append]
  rfl

theorem latest_singleton (kind : α → Bool) (v : α) :
    latest kind [v] = if kind v then some v else none := by
  cases is : kind v <;> simp [latest, is]

theorem latest_map (kind : β → Bool) (f : α → β) (vs : List α) :
    latest kind (vs.map f) = (latest (kind ∘ f) vs).map f := by
  rw [latest, List.filter_map, List.getLast?_map]
  rfl

theorem latest_filter (kind other : α → Bool) (vs : List α) :
    latest kind (vs.filter other) = latest (fun v => kind v && other v) vs := by
  rw [latest, List.filter_filter]
  rfl

/-- The last turn of a kind is also the last one of a narrower kind that it is of. -/
theorem latest_of_imp {narrow : α → Bool} (more : ∀ u, narrow u = true → kind u = true)
    (last : latest kind vs = some v) (here : narrow v = true) : latest narrow vs = some v := by
  obtain ⟨front, equal⟩ := List.getLast?_eq_some_iff.mp last
  have both : vs.filter narrow = (vs.filter kind).filter narrow := by
    rw [List.filter_filter]
    refine List.filter_congr fun u _ => ?_
    cases is : narrow u with
    | false => rfl
    | true => rw [more u is, Bool.and_true]
  rw [latest, both, equal, List.filter_append, List.filter_cons_of_pos here, List.filter_nil,
    List.getLast?_concat]

theorem exists_latest {kind : α → Bool} (member : v ∈ vs) (is : kind v = true) :
    ∃ last, latest kind vs = some last ∧ kind last = true := by
  have nonempty := List.ne_nil_of_mem (List.mem_filter.mpr ⟨member, is⟩)
  obtain ⟨last, found⟩ := Option.isSome_iff_exists.mp (List.getLast?_isSome.mpr nonempty)
  exact ⟨last, found, (List.mem_filter.mp (List.mem_of_getLast? found)).2⟩

/-- The last turn of a kind is the last one of those that count, if it counts, where that one is of
this kind too. -/
theorem latest_of_counts {counts narrow : α → Bool}
    (more : ∀ u, narrow u = true → kind u = true)
    (last : latest (fun u => kind u && counts u) vs = some v) (here : narrow v = true) :
    ∃ last', latest narrow vs = some last' ∧ (counts last' = true → last' = v) := by
  obtain ⟨member, both⟩ := List.mem_filter.mp (List.mem_of_getLast? last)
  obtain ⟨last', found, is⟩ := exists_latest member here
  refine ⟨last', found, fun counted => ?_⟩
  -- It is the last one of this kind that counts, and so is the other.
  have mine : latest (fun u => narrow u && counts u) vs = some v :=
    latest_of_imp (fun u both => (Bool.and_eq_true _ _).mpr
      (((Bool.and_eq_true _ _).mp both).imp_left (more u))) last
      ((Bool.and_eq_true _ _).mpr ⟨here, ((Bool.and_eq_true _ _).mp both).2⟩)
  have other : latest (fun u => narrow u && counts u) vs = some last' :=
    latest_of_imp (fun u both => ((Bool.and_eq_true _ _).mp both).1) found
      ((Bool.and_eq_true _ _).mpr ⟨is, counted⟩)
  exact Option.some.inj (other.symm.trans mine)

end

variable {vs ws : List Visit} {v : Visit} {name hash path : Bytes} {p : Progress}

/-- A turn that brought a header up to date at a path did so. -/
theorem Visit.delivers_of_deliversAt (v : Visit) (here : v.deliversAt name path = true) :
    v.delivers name = true := by
  obtain ⟨same, delivered⟩ := (Bool.and_eq_true _ _).mp here
  exact (Bool.and_eq_true _ _).mpr ⟨same, by rw [of_decide_eq_true delivered]; rfl⟩

theorem Visit.deliversAt_of_delivers {v : Visit} (delivers : v.delivers name = true)
    (here : v.turn.delivered? = some path) : v.deliversAt name path = true :=
  (Bool.and_eq_true _ _).mpr ⟨((Bool.and_eq_true _ _).mp delivers).1, decide_eq_true here⟩

/-! ## What the turns leave -/

theorem sameRecord_after (p : Progress) (v : Visit) : p.cache.SameRecord (p.after v).cache := by
  unfold Progress.after
  cases v.turn <;> exact ⟨rfl, rfl, rfl⟩

theorem sameRecord_afterAll (p : Progress) (vs : List Visit) :
    p.cache.SameRecord (p.afterAll vs).cache := by
  induction vs generalizing p with
  | nil => exact ⟨rfl, rfl, rfl⟩
  | cons v vs ih => exact (sameRecord_after p v).trans (ih (p.after v))

theorem lookup_of_drop {cache : Cache} {other : Bytes}
    (h : (cache.drop other).pending.lookup name = some hash) :
    cache.pending.lookup name = some hash := by
  rw [Cache.drop, lookup_filter] at h
  split at h
  · cases h
  · exact h

theorem wellFormed_drop {cache : Cache} {style : Bytes} (other : Bytes)
    (wf : CacheRecord.WellFormed ⟨style, cache.pending⟩) :
    CacheRecord.WellFormed ⟨style, (cache.drop other).pending⟩ :=
  ⟨wf.order.filter _, fun entry member => wf.proper entry (List.mem_filter.mp member).1⟩

/-- An entry that is there after a turn comes from the turn, or was there before. -/
theorem lookup_after (h : (p.after v).cache.pending.lookup name = some hash) :
    v.delivers name = true ∧ v.hash = hash ∨
      v.delivers name = false ∧ p.cache.pending.lookup name = some hash := by
  unfold Progress.after at h
  unfold Visit.delivers
  cases turn : v.turn with
  | superseded =>
    rw [turn] at h
    exact Or.inr ⟨by simp [Turn.delivered?], lookup_of_drop h⟩
  | skipped path =>
    rw [turn] at h
    exact Or.inr ⟨by simp [Turn.delivered?], h⟩
  | failed path kind =>
    rw [turn] at h
    exact Or.inr ⟨by simp [Turn.delivered?], lookup_of_drop h⟩
  | delivered path outcome =>
    rw [turn] at h
    replace h : (putSorted v.name v.hash p.cache.pending).lookup name = some hash := h
    rw [lookup_putSorted] at h
    split at h
    · next same => exact Or.inl ⟨by simp [Turn.delivered?, same], Option.some.inj h⟩
    · next other => exact Or.inr ⟨by simp [Turn.delivered?, Ne.symm other], h⟩

/-- An entry that is there after turns is the hash of the last one that brought the header up to
date. If there is none, it was there before. -/
theorem lookup_afterAll (h : (p.afterAll vs).cache.pending.lookup name = some hash) :
    ((latest (·.delivers name) vs).map Visit.hash).or (p.cache.pending.lookup name) =
      some hash := by
  induction vs generalizing p with
  | nil => exact h
  | cons v vs ih =>
    rw [show v :: vs = [v] ++ vs from rfl, latest_append, latest_singleton]
    specialize ih h
    cases later : latest (·.delivers name) vs with
    | some u =>
      rw [later] at ih
      exact ih
    | none =>
      rw [later] at ih
      rcases lookup_after ih with ⟨delivers, same⟩ | ⟨other, before⟩
      · rw [if_pos delivers]
        exact congrArg some same
      · rw [if_neg (by simp [other])]
        exact before

theorem wellFormed_after {style : Bytes} (filled : v.hash ≠ [])
    (wf : CacheRecord.WellFormed ⟨style, p.cache.pending⟩) :
    CacheRecord.WellFormed ⟨style, (p.after v).cache.pending⟩ := by
  unfold Progress.after
  cases v.turn with
  | superseded => exact wellFormed_drop v.name wf
  | skipped path => exact wf
  | failed path kind => exact wellFormed_drop v.name wf
  | delivered path outcome =>
    refine ⟨wf.order.put v.name v.hash, fun entry member => ?_⟩
    rcases mem_of_mem_putSorted member with rfl | member
    · exact filled
    · exact wf.proper entry member

theorem wellFormed_afterAll {style : Bytes} (filled : ∀ v, v ∈ vs → v.hash ≠ [])
    (wf : CacheRecord.WellFormed ⟨style, p.cache.pending⟩) :
    CacheRecord.WellFormed ⟨style, (p.afterAll vs).cache.pending⟩ := by
  induction vs generalizing p with
  | nil => exact wf
  | cons v vs ih =>
    obtain ⟨first, others⟩ := List.forall_mem_cons.mp filled
    exact ih others (wellFormed_after first wf)

/-- The schema was up to date at its turn. -/
def Visit.skips (v : Visit) (name : Bytes) : Prop := v.name = name ∧ ∃ path, v.turn = .skipped path

theorem mem_skipped_after :
    name ∈ (p.after v).report.skipped ↔ name ∈ p.report.skipped ∨ v.skips name := by
  unfold Progress.after Visit.skips
  cases v.turn with
  | superseded => simp [Progress.drop]
  | skipped path => simp [RunReport.noteSkipped, eq_comm]
  | failed path kind => simp [Progress.failed, RunReport.noteFailed]
  | delivered path outcome => simp [Progress.commit]

theorem mem_skipped_afterAll : name ∈ (p.afterAll vs).report.skipped ↔
    name ∈ p.report.skipped ∨ ∃ v, v ∈ vs ∧ v.skips name := by
  induction vs generalizing p with
  | nil => simp [Progress.afterAll]
  | cons v vs ih =>
    refine (ih (p := p.after v)).trans ?_
    simp only [mem_skipped_after, List.mem_cons, exists_eq_or_imp, or_assoc]

/-! ## What is known of the turns -/

variable {w : Workspace}

/-- A schema is skipped where its hash is the one on record. -/
theorem gives_takeTurn (c : Context) (s : NamedSchema) (cache : Cache) (w : Workspace) :
    Gives (takeTurn c s cache) w fun turn _ =>
      ∀ path, turn = .skipped path → cache.previous.lookup s.name = some (c.hash s) := by
  unfold takeTurn
  split
  · exact Gives.pure fun _ equal => nomatch equal
  · refine (Gives.any (locateTarget c cache s.name) w).bind fun path v _ => ?_
    refine (gives_isUpToDate cache path s.name (c.hash s) v).bind fun fresh u recorded => ?_
    split
    · next upToDate => exact Gives.pure fun _ _ => recorded upToDate
    · split
      · exact gives_after_write fun _ _ => Gives.pure fun _ equal => nomatch equal
      · refine gives_attempt fun outcome x _ => ?_
        split
        · exact Gives.pure fun _ equal => nomatch equal
        · exact (Gives.any _ x).bind fun _ _ _ => Gives.pure fun _ equal => nomatch equal

/-- Each of these schemas has its turn, in this order, and those that are skipped are on record with
their hashes. -/
structure TakenBy (c : Context) (schemas : List NamedSchema) (previous : List (Bytes × Bytes))
    (vs : List Visit) : Prop where
  names : vs.map Visit.name = schemas.map NamedSchema.name
  visit : ∀ v, v ∈ vs → ∃ s, s ∈ schemas ∧ v = c.visit s v.turn
  recorded : ∀ v path, v ∈ vs → v.turn = .skipped path → previous.lookup v.name = some v.hash

theorem gives_visits (c : Context) (schemas : List NamedSchema) (p : Progress) (w : Workspace) :
    Gives (visits c schemas p) w fun vs _ => TakenBy c schemas p.cache.previous vs := by
  induction schemas generalizing p w with
  | nil => exact Gives.pure ⟨rfl, List.forall_mem_nil _, fun _ _ member => nomatch member⟩
  | cons s rest ih =>
    refine (gives_takeTurn c s p.cache w).bind fun turn v first => ?_
    refine (ih (p.after (c.visit s turn)) v).bind fun vs _ later => Gives.pure ?_
    refine ⟨congrArg (s.name :: ·) later.names, ?_, ?_⟩
    · refine List.forall_mem_cons.mpr ⟨⟨s, List.mem_cons_self, rfl⟩, fun x member => ?_⟩
      obtain ⟨s', member', equal⟩ := later.visit x member
      exact ⟨s', List.mem_cons_of_mem s member', equal⟩
    · intro x path member skipped
      rcases List.mem_cons.mp member with rfl | member
      · exact first path skipped
      · rw [← (sameRecord_after p (c.visit s turn)).previous]
        exact later.recorded x path member skipped

/-! ## Names that are gone -/

/-- A step that skips no schema, and sets no entry. -/
structure Sheds (p q : Progress) : Prop where
  same : p.cache.SameRecord q.cache
  skipped : q.report.skipped = p.report.skipped
  lookup : ∀ name hash, q.cache.pending.lookup name = some hash →
    p.cache.pending.lookup name = some hash
  wellFormed : ∀ style, CacheRecord.WellFormed ⟨style, p.cache.pending⟩ →
    CacheRecord.WellFormed ⟨style, q.cache.pending⟩

theorem Sheds.of_same {q : Progress} (cache : q.cache = p.cache)
    (skipped : q.report.skipped = p.report.skipped) : Sheds p q := by
  refine ⟨⟨?_, ?_, ?_⟩, skipped, ?_, ?_⟩ <;> simp [cache]

theorem Sheds.trans {q r : Progress} (first : Sheds p q) (second : Sheds q r) : Sheds p r where
  same := first.same.trans second.same
  skipped := second.skipped.trans first.skipped
  lookup name hash h := first.lookup name hash (second.lookup name hash h)
  wellFormed style wf := second.wellFormed style (first.wellFormed style wf)

theorem sheds_drop {q : Progress} (cache : q.cache = p.cache.drop name)
    (skipped : q.report.skipped = p.report.skipped) : Sheds p q := by
  refine ⟨cache ▸ ⟨rfl, rfl, rfl⟩, skipped, fun other hash h => ?_, fun style wf => ?_⟩
  · exact lookup_of_drop (cache ▸ h)
  · exact cache ▸ wellFormed_drop name wf

theorem gives_removeStale_sheds (c : Context) (name : Bytes) (p : Progress) (w : Workspace) :
    Gives (removeStale c name p) w fun q _ => Sheds p q := by
  refine gives_attempt fun outcome v _ => ?_
  split
  · exact Gives.pure (.of_same rfl rfl)
  · split
    · exact gives_after_write fun _ _ => Gives.pure (sheds_drop rfl rfl)
    · exact Gives.pure (sheds_drop rfl rfl)

theorem gives_removeAllStale_sheds (c : Context) (names : List Bytes) (p : Progress)
    (w : Workspace) : Gives (removeAllStale c names p) w fun q _ => Sheds p q := by
  induction names generalizing p w with
  | nil => exact Gives.pure (.of_same rfl rfl)
  | cons name rest ih =>
    refine (gives_removeStale_sheds c name p w).bind fun q v first => ?_
    exact (ih q v).mono fun _ _ later => first.trans later

end Run

end HeaderForge
