import HeaderForge.Proofs.Build.Flattening
/-!
# Open names while a schema is flattened

Flattening opens the name of a schema that it expands and closes it again when it is done with the
schema, whether it went through all of it or failed somewhere below. References may lead in circles,
and nothing bounds how deep they lead but the names that have not contributed yet.

1. `Visits.unique`: there is one walk for a task at most. `Visits.stack_eq` and `Visits.nodup` are
   what it does to the names that are open.
2. `flatten_balanced`: flattening is that walk, from any open names and with any reader that opens
   and closes names in pairs.
-/

namespace HeaderForge

namespace Build

variable {index : Index} {owner : Bytes} {read : Fragment → Build (List Field)}

namespace Visits

variable {task : Task} {st : Flattening} {s : BuildState} {passed passed' : List BuildState}
  {ending ending' : Ending}

/-- A task has one walk at most. -/
theorem unique (h : Visits index owner read task st s passed ending)
    (h' : Visits index owner read task st s passed' ending') :
    passed' = passed ∧ ending' = ending := by
  induction h generalizing passed' ending' with
  | missing none same =>
    cases h' with
    | missing _ same' => exact ⟨by rw [same, same'], by rw [same, same']⟩
    | reused found | known found | expanded found => exact nomatch none.symm.trans found
    | fieldless other => exact nomatch other
  | reused found isOpen same =>
    cases h' with
    | missing none => exact nomatch none.symm.trans found
    | reused found' _ same' =>
      cases found.symm.trans found'
      exact ⟨by rw [same, same'], by rw [same, same']⟩
    | known found' closed | expanded found' closed =>
      cases found.symm.trans found'
      exact absurd isOpen closed
    | fieldless other => exact nomatch other
  | known found closed before same =>
    cases h' with
    | missing none => exact nomatch none.symm.trans found
    | reused found' isOpen =>
      cases found.symm.trans found'
      exact absurd isOpen closed
    | known found' _ _ same' =>
      cases found.symm.trans found'
      exact ⟨by rw [same, same'], by rw [same, same']⟩
    | expanded found' _ new =>
      cases found.symm.trans found'
      exact absurd before new
    | fieldless other => exact nomatch other
  | expanded found closed new same _ ih =>
    cases h' with
    | missing none => exact nomatch none.symm.trans found
    | reused found' isOpen =>
      cases found.symm.trans found'
      exact absurd isOpen closed
    | known found' _ before =>
      cases found.symm.trans found'
      exact absurd before new
    | expanded found' _ _ same' inside =>
      cases found.symm.trans found'
      subst same same'
      obtain ⟨rfl, ends⟩ := ih inside
      cases ends
      exact ⟨rfl, rfl⟩
    | fieldless other => exact nomatch other
  | read run same =>
    cases h' with
    | read run' same' =>
      cases run.symm.trans run'
      exact ⟨by rw [same, same'], by rw [same, same']⟩
    | unread run' => exact nomatch run.symm.trans run'
    | fieldless other => exact nomatch other
  | unread run =>
    cases h' with
    | read run' => exact nomatch run.symm.trans run'
    | unread run' =>
      cases run.symm.trans run'
      exact ⟨rfl, rfl⟩
    | fieldless other => exact nomatch other
  | fieldless other same =>
    cases h' with
    | fieldless _ same' => exact ⟨by rw [same, same'], by rw [same, same']⟩
    | untyped noTag => exact nomatch other.symm.trans noTag
    | missing | reused | known | expanded | read | unread | allOf => exact nomatch other
  | untyped noTag =>
    cases h' with
    | fieldless other => exact nomatch other.symm.trans noTag
    | untyped => exact ⟨rfl, rfl⟩
  | allOf _ ih =>
    cases h' with
    | allOf inside => exact ih inside
    | fieldless other => exact nomatch other
  | none =>
    cases h'
    exact ⟨rfl, rfl⟩
  | next _ _ ih ihLater =>
    cases h' with
    | next first later =>
      obtain ⟨rfl, ends⟩ := ih first
      cases ends
      obtain ⟨rfl, rfl⟩ := ihLater later
      exact ⟨rfl, rfl⟩
    | stop first => exact nomatch (ih first).2
  | stop _ ih =>
    cases h' with
    | next first => exact nomatch (ih first).2
    | stop first =>
      obtain ⟨rfl, ends⟩ := ih first
      cases ends
      exact ⟨rfl, rfl⟩

end Visits

/-! ## Open names -/

theorem nodup_opening {name : Bytes} {s : BuildState} (closed : name ∉ s.stack)
    (distinct : s.stack.Nodup) : (opening name s).stack.Nodup := by
  rw [stack_opening, List.nodup_append_comm]
  exact List.nodup_cons.mpr ⟨closed, distinct⟩

namespace Visits

variable (closes : ∀ fragment s, (exec (read fragment) s).2.stack = s.stack) {task : Task}
  {st : Flattening} {s : BuildState} {passed : List BuildState} {ending : Ending}
include closes

/-- Whatever comes of a walk, it leaves the names open that were open before. -/
theorem stack_eq (h : Visits index owner read task st s passed ending) :
    ending.2.stack = s.stack := by
  induction h with
  | missing _ same | fieldless _ same =>
    rw [same]
    rfl
  | reused _ _ same => exact stack_of_logged same
  | known _ closed _ same => exact stack_closing_of_opening closed (stack_of_logged same)
  | expanded _ closed _ same _ ih =>
    exact stack_closing_of_opening closed (ih.trans (stack_of_logged same))
  | read run same => exact (stack_of_logged same).trans (stack_of_read closes run)
  | unread run => exact stack_of_read closes run
  | untyped | none => rfl
  | allOf _ ih | stop _ ih => exact ih
  | next _ _ ih ihLater => exact ihLater.trans ih

/-- No name is ever open twice. -/
theorem nodup (h : Visits index owner read task st s passed ending) (distinct : s.stack.Nodup) :
    ∀ t, t ∈ passed → t.stack.Nodup := by
  induction h with
  | missing _ same | fieldless _ same =>
    subst same
    exact List.forall_mem_singleton.mpr distinct
  | reused _ _ same =>
    exact List.forall_mem_singleton.mpr (stack_of_logged same ▸ distinct)
  | known _ closed _ same =>
    have opened := nodup_opening closed distinct
    have still := stack_of_logged same
    have left := stack_closing_of_opening closed still
    exact List.forall_mem_cons.mpr ⟨opened, List.forall_mem_cons.mpr ⟨still ▸ opened,
      List.forall_mem_singleton.mpr (left ▸ distinct)⟩⟩
  | expanded _ closed _ same inside ih =>
    have opened := nodup_opening closed distinct
    have still := stack_of_logged same
    have left := stack_closing_of_opening closed ((inside.stack_eq closes).trans still)
    refine List.forall_mem_cons.mpr ⟨opened, List.forall_mem_cons.mpr ⟨still ▸ opened, ?_⟩⟩
    exact List.forall_mem_append.mpr
      ⟨ih (still ▸ opened), List.forall_mem_singleton.mpr (left ▸ distinct)⟩
  | read run same =>
    have kept := stack_of_read closes run
    have still := (stack_of_logged same).trans kept
    exact List.forall_mem_cons.mpr
      ⟨kept ▸ distinct, List.forall_mem_singleton.mpr (still ▸ distinct)⟩
  | unread run =>
    exact List.forall_mem_singleton.mpr (stack_of_read closes run ▸ distinct)
  | untyped | none => exact List.forall_mem_nil _
  | allOf _ ih | stop _ ih => exact ih distinct
  | next first _ ih ihLater =>
    have kept := first.stack_eq closes
    exact List.forall_mem_append.mpr ⟨ih distinct, ihLater (kept ▸ distinct)⟩

end Visits

/-! ## The result -/

/-- Flattening ends, whatever refers to what: it is the one walk through the schema that has no
bound. Whether it gathers fields or fails at a reference or in the reader, it leaves the names open
that were open before, and at no time is a name open twice. -/
theorem flatten_balanced {index : Index} {owner : Bytes} {read : Fragment → Build (List Field)}
    (closes : ∀ fragment st, (exec (read fragment) st).2.stack = st.stack) (s : Schema)
    {st : BuildState} (distinct : st.stack.Nodup) :
    (exec (flatten index s owner read) st).2.stack = st.stack ∧
      ∃ passed, (∀ t, t ∈ passed → t.stack.Nodup) ∧
        ∀ passed' ending, Visits index owner read (.schema s) ⟨[], [], []⟩ (announced owner s st)
            passed' ending ↔
          passed' = passed ∧ ending = exec (flatten index s owner read) st := by
  obtain ⟨passed, walk⟩ := @visits_flatten index owner read s st
  have start := (silent_announced owner s st).stack
  refine ⟨(walk.stack_eq closes).trans start, passed, walk.nodup closes (start ▸ distinct),
    fun passed' ending => ⟨walk.unique, ?_⟩⟩
  rintro ⟨rfl, rfl⟩
  exact walk

/-- A reader of keys alone that refuses a fragment with an identifier. -/
def exAnonymous (fragment : Fragment) : Build (List Field) :=
  if bytes "id" ∈ fragment.properties.map Prod.fst then throw .parseError else exRead fragment

theorem stack_exAnonymous (fragment : Fragment) (st : BuildState) :
    (exec (exAnonymous fragment) st).2.stack = st.stack := by
  unfold exAnonymous
  split <;> rfl

/-- The reader fails below two schemas that are being expanded, one of which leads back to the
schema that is flattened. -/
theorem flatten_balanced_exDiamond :
    exOpened.stack.Nodup ∧
      (exec (flatten exDiamond exBoth.schema exBoth.name exAnonymous) exOpened).1.toOption.isNone ∧
      (exec (flatten exDiamond exBoth.schema exBoth.name exAnonymous) exOpened).2.stack =
        [bytes "Both"] ∧
      ∃ passed, (∀ t, t ∈ passed → t.stack.Nodup) ∧
        ∀ passed' ending, Visits exDiamond exBoth.name exAnonymous (.schema exBoth.schema)
            ⟨[], [], []⟩ (announced exBoth.name exBoth.schema exOpened) passed' ending ↔
          passed' = passed ∧
            ending = exec (flatten exDiamond exBoth.schema exBoth.name exAnonymous) exOpened := by
  have distinct : exOpened.stack.Nodup := by decide
  obtain ⟨stack, walk⟩ := @flatten_balanced exDiamond exBoth.name exAnonymous stack_exAnonymous
    exBoth.schema exOpened distinct
  exact ⟨distinct, by decide +kernel, stack, walk⟩

end Build

end HeaderForge
