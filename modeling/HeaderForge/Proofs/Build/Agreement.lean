import HeaderForge.Proofs.Build.Calls
import HeaderForge.Proofs.Schema.Resemblance
/-!
# Steps that agree

Two builds that read different indexes may return different values at the same place, as long as
the values are related. `Agree R m n` says that from states with the same parts the steps `m` and
`n` fail in the same way or return values related by `R`, and end in states with the same parts.

Some steps do not even depend on the state, which they change only by what they report. `Yields m x`
says that `m` ends as `x` from all states, and `Concur R m n` that two such steps end alike.

The rules follow the ways to combine steps. What follows them are the steps that look into an index:
they concur for indexes in which the same tokens find related schemas.
-/

namespace HeaderForge

namespace Build

variable {α β α' β' ε : Type} {R : α → β → Prop} {Q : α' → β' → Prop} {m : Build α} {n : Build β}

/-- The same failure, or values that are related. -/
inductive Outcome (R : α → β → Prop) : Except ε α → Except ε β → Prop
  | ok {a : α} {b : β} : R a b → Outcome R (.ok a) (.ok b)
  | error (e : ε) : Outcome R (.error e) (.error e)

theorem Outcome.refl (x : Except ε α) : Outcome Eq x x := by
  cases x with
  | ok a => exact .ok rfl
  | error e => exact .error e

theorem Outcome.weaken {R' : α → β → Prop} {x : Except ε α} {y : Except ε β} (h : Outcome R x y)
    (imp : ∀ a b, R a b → R' a b) : Outcome R' x y := by
  cases h with
  | ok related => exact .ok (imp _ _ related)
  | error e => exact .error e

theorem Outcome.eq {x y : Except ε α} (h : Outcome (fun a b => b = a) x y) : y = x := by
  cases h with
  | ok same => rw [same]
  | error => rfl

def Agree (R : α → β → Prop) (m : Build α) (n : Build β) : Prop :=
  ∀ s t, Same s t → Outcome R (exec m s).1 (exec n t).1 ∧ Same (exec m s).2 (exec n t).2

namespace Agree

theorem pure {a : α} {b : β} (related : R a b) : Agree R (pure a) (pure b) :=
  fun _ _ same => ⟨.ok related, same⟩

theorem get : Agree Same get get := fun _ _ same => ⟨.ok same, same⟩

/-- The second steps have to agree for all values that the first ones may return together. -/
theorem bind {f : α → Build α'} {g : β → Build β'} (first : Agree R m n)
    (second : ∀ a b, R a b → Agree Q (f a) (g b)) : Agree Q (m >>= f) (n >>= g) := by
  intro s t same
  obtain ⟨outcome, same'⟩ := first s t same
  rw [exec_bind, exec_bind]
  rcases run : exec m s with ⟨x, u⟩
  rcases run' : exec n t with ⟨y, u'⟩
  rw [run, run'] at outcome same'
  cases outcome with
  | ok related => exact second _ _ related u u' same'
  | error e => exact ⟨.error e, same'⟩

theorem weaken {R' : α → β → Prop} (h : Agree R m n) (imp : ∀ a b, R a b → R' a b) :
    Agree R' m n := by
  intro s t same
  obtain ⟨outcome, same'⟩ := h s t same
  exact ⟨outcome.weaken imp, same'⟩

theorem modify {f g : BuildState → BuildState} (same : ∀ s t, Same s t → Same (f s) (g t)) :
    Agree Eq (modify f) (modify g) :=
  fun s t h => ⟨.ok rfl, same s t h⟩

theorem report (d d' : Diagnostic) : Agree Eq (report d) (report d') :=
  modify fun _ _ same => ⟨same.stack, same.dependencies, same.inlineEnums⟩

theorem write (line line' : LogLine) : Agree Eq (write line) (write line') :=
  modify fun _ _ same => ⟨same.stack, same.dependencies, same.inlineEnums⟩

theorem detail (tag message message' : Bytes) :
    Agree Eq (detail tag message) (detail tag message') :=
  write _ _

theorem warn (tag message message' : Bytes) : Agree Eq (warn tag message) (warn tag message') :=
  write _ _

theorem warning (rule subject message message' : Bytes) :
    Agree Eq (warning rule subject message) (warning rule subject message') :=
  report _ _

/-- What is logged or reported before a step does not matter. -/
theorem after {p p' : Build Unit} (h : Agree R m n) (first : Agree Eq p p') :
    Agree R (p >>= fun _ => m) (p' >>= fun _ => n) :=
  first.bind fun _ _ _ => h

theorem visiting {f : Bool → Build α} {g : Bool → Build β} (name : Bytes)
    (step : ∀ entered, Agree R (f entered) (g entered)) :
    Agree R (visiting name f) (visiting name g) := by
  intro s t same
  rw [exec_visiting, exec_visiting, same.stack]
  split
  · exact step false s t same
  · obtain ⟨outcome, same'⟩ := step true { s with stack := s.stack ++ [name] }
      { t with stack := s.stack ++ [name] } ⟨rfl, same.dependencies, same.inlineEnums⟩
    refine ⟨outcome, ?_, same'.dependencies, same'.inlineEnums⟩
    show List.erase _ name = List.erase _ name
    rw [same'.stack]

end Agree

/-! ## Steps that do not depend on the state -/

/-- From whatever state, the step ends in this way and does no more than report. -/
def Yields (m : Build α) (x : Except FailureKind α) : Prop :=
  ∀ s, ∃ t, Silent s t ∧ exec m s = (x, t)

namespace Yields

theorem pure (a : α) : Yields (pure a) (.ok a) := fun s => ⟨s, Silent.refl s, rfl⟩

theorem throw (e : FailureKind) : Yields (throw e : Build α) (.error e) :=
  fun s => ⟨s, Silent.refl s, rfl⟩

theorem bind {f : α → Build α'} {a : α} {x : Except FailureKind α'} (first : Yields m (.ok a))
    (second : Yields (f a) x) : Yields (m >>= f) x := by
  intro s
  obtain ⟨t, silent, run⟩ := first s
  obtain ⟨u, silent', run'⟩ := second t
  refine ⟨u, silent.trans silent', ?_⟩
  rw [exec_bind, run]
  exact run'

theorem bind_error {f : α → Build α'} {e : FailureKind} (first : Yields m (.error e)) :
    Yields (m >>= f) (.error e) := by
  intro s
  obtain ⟨t, silent, run⟩ := first s
  refine ⟨t, silent, ?_⟩
  rw [exec_bind, run]

theorem report (d : Diagnostic) : Yields (report d) (.ok ()) :=
  fun s => ⟨{ s with diagnostics := s.diagnostics.report d }, ⟨⟨rfl, rfl, rfl⟩, rfl⟩, rfl⟩

theorem write (line : LogLine) : Yields (write line) (.ok ()) :=
  fun s => ⟨{ s with log := s.log.write line }, ⟨⟨rfl, rfl, rfl⟩, rfl⟩, rfl⟩

theorem fst_eq {x : Except FailureKind α} (h : Yields m x) (s : BuildState) :
    (exec m s).1 = x := by
  obtain ⟨t, -, run⟩ := h s
  rw [run]

end Yields

/-- Whatever their states are, the steps fail in the same way or return related values, and they do
no more than report. -/
def Concur (R : α → β → Prop) (m : Build α) (n : Build β) : Prop :=
  ∃ x y, Yields m x ∧ Yields n y ∧ Outcome R x y

namespace Concur

theorem pure {a : α} {b : β} (related : R a b) : Concur R (pure a) (pure b) :=
  ⟨_, _, Yields.pure a, Yields.pure b, .ok related⟩

theorem throw (e : FailureKind) : Concur R (throw e) (throw e) :=
  ⟨_, _, Yields.throw e, Yields.throw e, .error e⟩

theorem bind {f : α → Build α'} {g : β → Build β'} (first : Concur R m n)
    (second : ∀ a b, R a b → Concur Q (f a) (g b)) : Concur Q (m >>= f) (n >>= g) := by
  obtain ⟨_, _, yields, yields', outcome⟩ := first
  cases outcome with
  | ok related =>
    obtain ⟨x, y, later, later', outcome⟩ := second _ _ related
    exact ⟨x, y, yields.bind later, yields'.bind later', outcome⟩
  | error e => exact ⟨_, _, yields.bind_error, yields'.bind_error, .error e⟩

theorem weaken {R' : α → β → Prop} (h : Concur R m n) (imp : ∀ a b, R a b → R' a b) :
    Concur R' m n := by
  obtain ⟨x, y, yields, yields', outcome⟩ := h
  exact ⟨x, y, yields, yields', outcome.weaken imp⟩

/-- What is reported before a step does not matter. -/
theorem after_report (h : Concur R m n) (d d' : Diagnostic) :
    Concur R (report d >>= fun _ => m) (report d' >>= fun _ => n) := by
  obtain ⟨x, y, yields, yields', outcome⟩ := h
  exact ⟨x, y, (Yields.report d).bind yields, (Yields.report d').bind yields', outcome⟩

/-- Neither does what is logged before it. -/
theorem after_write (h : Concur R m n) (line line' : LogLine) :
    Concur R (write line >>= fun _ => m) (write line' >>= fun _ => n) := by
  obtain ⟨x, y, yields, yields', outcome⟩ := h
  exact ⟨x, y, (Yields.write line).bind yields, (Yields.write line').bind yields', outcome⟩

theorem agree (h : Concur R m n) : Agree R m n := by
  obtain ⟨x, y, yields, yields', outcome⟩ := h
  intro s t same
  obtain ⟨u, silent, run⟩ := yields s
  obtain ⟨u', silent', run'⟩ := yields' t
  rw [run, run']
  exact ⟨outcome, (silent.toSame.symm.trans same).trans silent'.toSame⟩

theorem outcome (h : Concur R m n) (s t : BuildState) : Outcome R (exec m s).1 (exec n t).1 := by
  obtain ⟨x, y, yields, yields', outcome⟩ := h
  rwa [yields.fst_eq, yields'.fst_eq]

end Concur

/-! ## References -/

/-- Schemas with the same token are both references to it, or neither is a reference. -/
theorem token_cases {s s' : Schema} (same : s'.token? = s.token?) :
    (s.token? = none ∧ s'.token? = none) ∨
      ∃ info info' token, s = .reference info token ∧ s' = .reference info' token := by
  cases own : s.token? with
  | none => exact .inl ⟨rfl, same.trans own⟩
  | some token =>
    have own' := same.trans own
    refine .inr ?_
    cases s with
    | reference info _ =>
      cases s' with
      | reference info' _ =>
        cases own
        cases own'
        exact ⟨info, info', token, rfl, rfl⟩
      | primitive | enumeration | array | object | allOf | union => exact nomatch own'
    | primitive | enumeration | array | object | allOf | union => exact nomatch own

theorem followFrom_of_no_token {index : Index} {subject : Bytes} {hops : Nat} {s : NamedSchema}
    (own : s.schema.token? = none) : followFrom index subject hops s = return s := by
  obtain ⟨name, s⟩ := s
  unfold followFrom
  cases s with
  | reference => cases own
  | primitive | enumeration | array | object | allOf | union => rfl

section

variable {i j : Index} {N : NamedSchema → NamedSchema → Prop}
  (resolves : ∀ token, Option.Rel N (i.resolve? token) (j.resolve? token))
include resolves

theorem concur_resolve (token subject : Bytes) :
    Concur (fun a b => i.resolve? token = some a ∧ N a b) (resolve i token subject)
      (resolve j token subject) := by
  unfold resolve
  rcases rel_cases (resolves token) with ⟨here, there⟩ | ⟨a, b, here, there, related⟩
  · rw [here, there]
    exact (Concur.throw _).after_report _ _
  · rw [here, there]
    exact Concur.pure ⟨rfl, related⟩

variable (tokens : ∀ a b, N a b → b.schema.token? = a.schema.token?)
include tokens

/-- Chains of references from related schemas run alongside. -/
theorem concur_followFrom (subject : Bytes) (hops : Nat) {a b : NamedSchema} (related : N a b) :
    Concur N (followFrom i subject hops a) (followFrom j subject hops b) := by
  induction hops generalizing a b with
  | zero =>
    rcases token_cases (tokens a b related) with ⟨own, own'⟩ | ⟨info, info', token, own, own'⟩
    · rw [followFrom_of_no_token own, followFrom_of_no_token own']
      exact Concur.pure related
    · unfold followFrom
      rw [own, own']
      exact (Concur.throw _).after_report _ _
  | succ hops ih =>
    rcases token_cases (tokens a b related) with ⟨own, own'⟩ | ⟨info, info', token, own, own'⟩
    · rw [followFrom_of_no_token own, followFrom_of_no_token own']
      exact Concur.pure related
    · unfold followFrom
      rw [own, own']
      exact (concur_resolve resolves _ _).bind fun _ _ found => ih found.2

theorem concur_follow (subject : Bytes) {a b : NamedSchema} (related : N a b) :
    Concur N (follow i a subject) (follow j b subject) :=
  concur_followFrom resolves tokens subject maxHops related

end

end Build

end HeaderForge
