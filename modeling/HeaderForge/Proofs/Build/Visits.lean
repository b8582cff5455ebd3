import HeaderForge.Proofs.Build.Composition
/-!
# Flattening is a walk without a bound

References may lead in circles, so flattening stops after as many levels as there are named schemas.
It never comes to that: a name that has contributed is not expanded again, and the levels that are
left exceed the names that are left.

1. `Visits` is the walk as a recursion without any bound. It relates a task to the states on the way
   and to what comes of it, so a derivation is a walk that ends.
2. `visits_flatten`: flattening is that walk, from whatever state and with any reader. What holds of
   all that is flattened is proved by induction on `Visits`.
-/

namespace HeaderForge

/-- Whether a schema is of a kind that has no fields, which a composition reports. -/
def Schema.isFieldless : Schema → Bool
  | .primitive info => info.hasType
  | .array _ _ | .enumeration _ _ | .union _ _ _ _ => true
  | .reference _ _ | .object _ _ _ _ | .allOf _ _ => false

namespace Build

/-! ## Walks without a bound -/

/-- What a walk goes through: one schema, or the members of a composition from left to right. -/
inductive Task where
  | schema (s : Schema)
  | members (ms : List Schema)

/-- What comes of a walk: what has been gathered or why it failed, and the state after it. -/
abbrev Ending := Except FailureKind Flattening × BuildState

def logged (owner message : Bytes) (s : BuildState) : BuildState :=
  (exec (composing owner message) s).2

def opening (name : Bytes) (s : BuildState) : BuildState := { s with stack := s.stack ++ [name] }

section

variable (index : Index) (owner : Bytes) (read : Fragment → Build (List Field))

/-- The walk for a task, with the state after each of its steps. A named schema is expanded by the
walk for its own schema, however many of them are open already. -/
inductive Visits :
    Task → Flattening → BuildState → (passed : List BuildState) → Ending → Prop
  | missing {info : SchemaInfo} {token : Bytes} {st : Flattening} {s t : BuildState} :
      index.resolve? token = none → t = (exec (reportToken token owner) s).2 →
      Visits (.schema (.reference info token)) st s [t] (.error .unresolvedReference, t)
  | reused {info : SchemaInfo} {token : Bytes} {target : NamedSchema} {st : Flattening}
      {s t : BuildState} :
      index.resolve? token = some target → target.name ∈ s.stack →
      t = logged owner (target.name ++ bytes " is still being expanded, reusing it by name") s →
      Visits (.schema (.reference info token)) st s [t] (.ok (noteReused target.name st), t)
  | known {info : SchemaInfo} {token : Bytes} {target : NamedSchema} {st : Flattening}
      {s t : BuildState} :
      index.resolve? token = some target → target.name ∉ s.stack → target.name ∈ st.contributed →
      t = logged owner (target.name ++ bytes " already contributed through another path")
        (opening target.name s) →
      Visits (.schema (.reference info token)) st s
        [opening target.name s, t, closing target.name t] (.ok st, closing target.name t)
  | expanded {info : SchemaInfo} {token : Bytes} {target : NamedSchema} {st : Flattening}
      {s t u : BuildState} {passed : List BuildState} {outcome : Except FailureKind Flattening} :
      index.resolve? token = some target → target.name ∉ s.stack → target.name ∉ st.contributed →
      t = logged owner (bytes "flattening " ++ target.name) (opening target.name s) →
      Visits (.schema target.schema) (noteExpanded target.name st) t passed (outcome, u) →
      Visits (.schema (.reference info token)) st s
        (opening target.name s :: t :: passed ++ [closing target.name u])
        (outcome, closing target.name u)
  | read {info : SchemaInfo} {properties : List (Bytes × Schema)} {required : List Bytes}
      {extra : Extra Schema} {st : Flattening} {s t u : BuildState} {fields : List Field} :
      exec (read ⟨info, properties, required, extra⟩) s = (.ok fields, t) →
      u = logged owner (bytes "merging " ++ natText fields.length ++ bytes " field(s)") t →
      Visits (.schema (.object info properties required extra)) st s [t, u]
        (.ok { st with fields := Field.merge st.fields fields }, u)
  | unread {info : SchemaInfo} {properties : List (Bytes × Schema)} {required : List Bytes}
      {extra : Extra Schema} {st : Flattening} {s t : BuildState} {kind : FailureKind} :
      exec (read ⟨info, properties, required, extra⟩) s = (.error kind, t) →
      Visits (.schema (.object info properties required extra)) st s [t] (.error kind, t)
  | fieldless {schema : Schema} {st : Flattening} {s t : BuildState} :
      schema.isFieldless = true →
      t = (exec (warning (bytes "composition") owner (bytes "allOf fragment of kind " ++
        schema.describe ++ bytes " contributes no fields")) s).2 →
      Visits (.schema schema) st s [t] (.ok st, t)
  | untyped {info : SchemaInfo} {st : Flattening} {s : BuildState} :
      info.hasType = false → Visits (.schema (.primitive info)) st s [] (.ok st, s)
  | allOf {info : SchemaInfo} {members : List Schema} {st : Flattening} {s : BuildState}
      {passed : List BuildState} {ending : Ending} :
      Visits (.members members) st s passed ending →
      Visits (.schema (.allOf info members)) st s passed ending
  | none {st : Flattening} {s : BuildState} : Visits (.members []) st s [] (.ok st, s)
  | next {member : Schema} {rest : List Schema} {st st' : Flattening} {s t : BuildState}
      {passed later : List BuildState} {ending : Ending} :
      Visits (.schema member) st s passed (.ok st', t) →
      Visits (.members rest) st' t later ending →
      Visits (.members (member :: rest)) st s (passed ++ later) ending
  | stop {member : Schema} {rest : List Schema} {st : Flattening} {s t : BuildState}
      {passed : List BuildState} {kind : FailureKind} :
      Visits (.schema member) st s passed (.error kind, t) →
      Visits (.members (member :: rest)) st s passed (.error kind, t)

end

variable {index : Index} {owner : Bytes} {read : Fragment → Build (List Field)}

namespace Visits

variable {task : Task} {st : Flattening} {s : BuildState} {passed : List BuildState}
  {ending : Ending}

/-- Nothing that has contributed is forgotten. -/
theorem contributed_subset (h : Visits index owner read task st s passed ending) :
    ∀ found t, ending = (.ok found, t) → st.contributed ⊆ found.contributed := by
  induction h with
  | missing | unread | stop => exact fun _ _ same => nomatch same
  | reused =>
    intro found t same
    cases same
    unfold noteReused
    split <;> exact List.Subset.refl _
  | known | read | fieldless | untyped | none =>
    intro found t same
    cases same
    exact List.Subset.refl _
  | expanded _ _ _ _ _ ih =>
    intro found t same
    cases same
    exact fun name before => ih _ _ rfl (List.mem_cons_of_mem _ before)
  | allOf _ ih => exact ih
  | next _ _ ih ihLater =>
    exact fun found t same => List.Subset.trans (ih _ _ rfl) (ihLater found t same)

end Visits

/-! ## States on the way -/

theorem silent_of_logged {owner message : Bytes} {s t : BuildState}
    (same : t = logged owner message s) : Silent s t := by
  subst same
  exact ⟨⟨rfl, rfl, rfl⟩, rfl⟩

theorem stack_of_logged {owner message : Bytes} {s t : BuildState}
    (same : t = logged owner message s) : t.stack = s.stack :=
  (silent_of_logged same).stack

@[simp] theorem stack_opening (name : Bytes) (s : BuildState) :
    (opening name s).stack = s.stack ++ [name] := rfl

/-- A name that was not open before is closed again, and others stay open. -/
theorem stack_closing_of_opening {name : Bytes} {s t : BuildState} (closed : name ∉ s.stack)
    (same : t.stack = (opening name s).stack) : (closing name t).stack = s.stack := by
  show t.stack.erase name = s.stack
  rw [same, stack_opening, List.erase_append_right _ closed]
  simp

theorem stack_of_read (closes : ∀ fragment s, (exec (read fragment) s).2.stack = s.stack)
    {fragment : Fragment} {s t : BuildState} {outcome : Except FailureKind (List Field)}
    (run : exec (read fragment) s = (outcome, t)) : t.stack = s.stack := by
  have kept := closes fragment s
  rwa [run] at kept

/-! ## Flattening is the walk -/

section

variable {expand : NamedSchema → Flattening → Build Flattening}

theorem visits_contributeFragment (info : SchemaInfo) (properties : List (Bytes × Schema))
    (required : List Bytes) (extra : Extra Schema) (st : Flattening) (s : BuildState) :
    ∃ passed, Visits index owner read (.schema (.object info properties required extra)) st s passed
      (exec (contributeFragment ⟨index, owner, read, expand⟩ ⟨info, properties, required, extra⟩ st)
        s) := by
  unfold contributeFragment
  rw [exec_bind]
  rcases run : exec (read ⟨info, properties, required, extra⟩) s with ⟨kind | fields, t⟩
  · exact ⟨_, .unread run⟩
  · exact ⟨_, .read run rfl⟩

variable {n : Nat} (expands : ∀ target st s, remaining index.names st.contributed < n →
  ∃ passed, Visits index owner read (.schema target.schema) st s passed (exec (expand target st) s))
include expands

theorem visits_contributeNamed {info : SchemaInfo} {token : Bytes} {target : NamedSchema}
    (found : index.resolve? token = some target) (st : Flattening) (s : BuildState)
    (fits : remaining index.names st.contributed ≤ n) :
    ∃ passed, Visits index owner read (.schema (.reference info token)) st s passed
      (exec (contributeNamed ⟨index, owner, read, expand⟩ target st) s) := by
  unfold contributeNamed
  rw [exec_visiting]
  split
  · next isOpen => exact ⟨_, .reused found isOpen rfl⟩
  · next closed =>
    simp only [Bool.not_true, Bool.false_eq_true, if_false]
    split
    · next before => exact ⟨_, .known found closed before rfl⟩
    · next new =>
      have member := Index.mem_names_of_find? (Index.find?_of_resolve? found).2
      have less : remaining index.names (noteExpanded target.name st).contributed < n :=
        Nat.lt_of_lt_of_le (remaining_cons_lt member new) fits
      obtain ⟨passed, inside⟩ := expands target _
        (logged owner (bytes "flattening " ++ target.name) (opening target.name s)) less
      exact ⟨_, .expanded found closed new rfl inside⟩

/-- What a schema contributes is a walk, if that holds of the named schemas that are expanded while
fewer names are left. -/
theorem visits_contribute (schema : Schema) (st : Flattening) (s : BuildState)
    (fits : remaining index.names st.contributed ≤ n) :
    ∃ passed, Visits index owner read (.schema schema) st s passed
      (exec (contribute ⟨index, owner, read, expand⟩ schema st) s) := by
  -- The induction is on the recursion of `contribute`, whose second motive is about members.
  refine contribute.induct
    (fun schema st => ∀ s, remaining index.names st.contributed ≤ n →
      ∃ passed, Visits index owner read (.schema schema) st s passed
        (exec (contribute ⟨index, owner, read, expand⟩ schema st) s))
    (fun members st => ∀ s, remaining index.names st.contributed ≤ n →
      ∃ passed, Visits index owner read (.members members) st s passed
        (exec (contributeAll ⟨index, owner, read, expand⟩ members st) s))
    ?reference ?allOf ?object ?typed ?untyped ?array ?enumeration ?union ?none ?more schema st
    s fits
  case reference =>
    intro info token st s fits
    rw [contribute, exec_bind]
    unfold Build.resolve
    cases found : index.resolve? token with
    | none => exact ⟨_, .missing found rfl⟩
    | some target => exact visits_contributeNamed expands found st s fits
  case allOf =>
    intro info members st ih s fits
    rw [contribute]
    obtain ⟨passed, inside⟩ := ih s fits
    exact ⟨passed, .allOf inside⟩
  case object =>
    intro info properties required extra st s fits
    rw [contribute]
    exact visits_contributeFragment info properties required extra st s
  case typed =>
    intro info st typed s fits
    rw [contribute, if_pos typed]
    exact ⟨_, .fieldless typed rfl⟩
  case untyped =>
    intro info st untyped s fits
    rw [contribute, if_neg untyped]
    exact ⟨_, .untyped (by simpa using untyped)⟩
  case array | enumeration | union =>
    intros
    rw [contribute]
    exact ⟨_, .fieldless rfl rfl⟩
  case none =>
    intro st s fits
    rw [contributeAll]
    exact ⟨_, .none⟩
  case more =>
    intro member rest st ih others s fits
    rw [contributeAll, exec_bind]
    obtain ⟨passed, first⟩ := ih s fits
    rcases run : exec (contribute ⟨index, owner, read, expand⟩ member st) s with ⟨kind | st', t⟩
    · rw [run] at first
      exact ⟨_, .stop first⟩
    · rw [run] at first
      have fewer := @remaining_mono index.names _ _ (first.contributed_subset st' t rfl)
      obtain ⟨later, rest⟩ := others st' t (Nat.le_trans fewer fits)
      exact ⟨_, .next first rest⟩

end

/-- The bound on the walk is never reached. -/
theorem visits_flattenWithin {bound : Nat} (schema : Schema) (st : Flattening) (s : BuildState)
    (left : remaining index.names st.contributed < bound) :
    ∃ passed, Visits index owner read (.schema schema) st s passed
      (exec (flattenWithin index owner read bound schema st) s) := by
  induction bound generalizing schema st s with
  | zero => exact absurd left (Nat.not_lt_zero _)
  | succ bound ih =>
    rw [flattenWithin]
    exact visits_contribute (fun target st s fits => ih target.schema st s fits) schema st s
      (Nat.le_of_lt_succ left)

/-- The state after the line that announces a composition. -/
def announced (owner : Bytes) (s : Schema) (st : BuildState) : BuildState :=
  match s with
  | .allOf _ members =>
    logged owner (bytes "allOf over " ++ natText members.length ++ bytes " fragment(s)") st
  | _ => st

theorem silent_announced (owner : Bytes) (s : Schema) (st : BuildState) :
    Silent st (announced owner s st) := by
  unfold announced
  split
  · exact silent_of_logged rfl
  · exact Silent.refl st

theorem visits_flatten (s : Schema) (st : BuildState) :
    ∃ passed, Visits index owner read (.schema s) ⟨[], [], []⟩ (announced owner s st) passed
      (exec (flatten index s owner read) st) := by
  have left : remaining index.names [] < index.named.length + 1 := by
    rw [← Index.length_names]
    exact Nat.lt_succ_of_le (remaining_le_length _ _)
  have walk := fun t => @visits_flattenWithin index owner read _ s ⟨[], [], []⟩ t left
  cases s with
  | allOf info members => exact walk _
  | primitive | enumeration | reference | array | object | union => exact walk st

end Build

end HeaderForge
