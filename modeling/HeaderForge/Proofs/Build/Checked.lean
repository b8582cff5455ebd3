import HeaderForge.Proofs.Build.Registry
/-!
# A check spares all later ones

Before any class is built, `checkAll` resolves every token that the schemas of an index hold. The
build looks tokens up again where it maps types, flattens, plans unions, reads the literals of tags
and follows aliases, and it goes from schema to schema on the way. All these tokens were checked, so
none is looked up in vain. The only step that is left to fail is to follow a chain of too many
references.
-/

namespace HeaderForge

namespace Build

open Index (Inside Twins)

variable {index : Index} {settings : ModelSettings}

theorem answered_distinctFields (schemaName : Bytes) (used : Naming.Taken) (fields : List Field) :
    Answered (distinctFields schemaName used fields) := by
  induction fields generalizing used with
  | nil => exact Answered.pure []
  | cons f rest ih =>
    have others := (ih (used.take (used.unused f.name))).bind fun _ more _ =>
      Answered.pure ({ f with name := used.unused f.name } :: more)
    rw [distinctFields]
    dsimp only
    split
    · exact (Answered.modify _).bind fun _ _ _ => others
    · exact others

/-- The class of a schema is built without a lookup in vain. -/
theorem answered_buildClass (resolved : index.Resolved) {s : NamedSchema}
    (member : s ∈ index.named) : Answered (buildClass index settings s) := by
  obtain ⟨name, inside, stay⟩ := inside_of_resolved resolved member
  obtain ⟨D, -, alike⟩ := @alike_buildShape _ _ _ (Twins.refl resolved) settings s name inside stay
  unfold buildClass
  refine (Answered.modify _).bind fun _ _ _ => Answered.visiting fun _ => ?_
  refine alike.answered.bind fun _ c _ => Answered.get.bind fun _ st _ => ?_
  refine (answered_distinctFields s.name .none c.fields).bind fun _ fields _ => ?_
  exact (Answered.modify _).bind fun _ _ _ => Answered.pure _

theorem answered_register (c : ClassModel) : Answered (register c) := by
  unfold register
  refine Answered.get.bind fun _ st _ => ?_
  split
  · exact (Answered.modify _).bind fun _ _ _ => Answered.modify _
  · exact Answered.modify _

theorem answered_buildEach (settings : ModelSettings) (resolved : index.Resolved)
    {schemas : List NamedSchema} (members : ∀ s, s ∈ schemas → s ∈ index.named) :
    Answered (buildEach index settings schemas) := by
  induction schemas with
  | nil => exact Answered.pure ()
  | cons s rest ih =>
    obtain ⟨first, others⟩ := List.forall_mem_cons.mp members
    refine (answered_buildClass resolved first).bind fun _ c _ => ?_
    exact (answered_register c).bind fun _ _ _ => ih others

/-- After a check that succeeds, every token that is looked up has a schema, and the build succeeds
unless a chain that it follows has more references than may be followed. -/
theorem buildAll_of_checkAll (settings : ModelSettings) {st checked : BuildState}
    (check : exec (checkAll index) st = (.ok (), checked)) :
    ∃ calls, Asks (buildEach index settings index.named) checked calls ∧
      (∀ c, c ∈ calls → c.Found) ∧
      (exec (buildAll index settings) st).1 =
        if calls.any Call.isOverlong then .error .unresolvedReference else .ok () := by
  obtain ⟨resolved, -⟩ := resolved_of_checkAll check
  obtain ⟨calls, asks, found⟩ := answered_buildEach settings resolved (fun _ hs => hs) checked
  refine ⟨calls, asks, found, ?_⟩
  have outcome := asks.outcome found
  unfold buildAll
  rw [exec_bind, check]
  split at outcome
  · next overlong => rw [if_pos overlong, outcome]
  · next fine =>
    obtain ⟨_, returns⟩ := outcome
    rw [if_neg fine, returns]

/-- A schema that is an alias of itself. -/
def exLoop : Index where
  dialect := .openapi3
  version := bytes "3"
  named :=
    [⟨bytes "Loop",
      .reference ⟨.any, [], [], [], false, false, false, .obj []⟩ (bytes "Loop")⟩]

/-- The references of an alias of itself resolve, but lead nowhere. -/
theorem buildAll_of_checkAll_exLoop :
    exec (checkAll exLoop) start = (.ok (), start) ∧
      ∃ calls, Asks (buildEach exLoop ⟨true, []⟩ exLoop.named) start calls ∧
        (∀ c, c ∈ calls → c.Found) ∧ calls.any Call.isOverlong = true ∧
        (exec (buildAll exLoop ⟨true, []⟩) start).1 = .error .unresolvedReference := by
  have check : exec (checkAll exLoop) start = (.ok (), start) := rfl
  have fails : (exec (buildAll exLoop ⟨true, []⟩) start).1.toOption = none := by decide +kernel
  obtain ⟨calls, asks, found, outcome⟩ := buildAll_of_checkAll ⟨true, []⟩ check
  have overlong : calls.any Call.isOverlong = true := by
    by_contra fine
    rw [outcome, if_neg fine] at fails
    exact nomatch fails
  rw [if_pos overlong] at outcome
  exact ⟨check, calls, asks, found, overlong, outcome⟩

end Build

end HeaderForge
