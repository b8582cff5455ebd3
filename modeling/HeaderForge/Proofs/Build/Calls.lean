import HeaderForge.Build.Basic
import HeaderForge.Proofs.Gives
/-!
# What a step asks for

A step of a build asks which schemas tokens refer to, and follows chains of references to their end.
Only that can make it fail.

1. `exec` is what a step makes of a state, with one equation for each way to combine steps.
2. `Asks` lists the calls that a step makes when it runs from a state. It has no rule by which a
   step fails but for a call, and `Asks.outcome` is what the calls make of the step: if all tokens
   are found, it fails exactly where a chain is too long.
3. `Answered` steps look up no token in vain, from whatever state they run.
-/

namespace HeaderForge

namespace Build

/-! ## Running a step -/

section

variable {α β : Type}

/-- The outcome of a step and the state after it. -/
def exec (m : Build α) (s : BuildState) : Except FailureKind α × BuildState := m.run.run s

theorem exec_pure (a : α) (s : BuildState) : exec (pure a) s = (.ok a, s) := rfl

theorem exec_modify (f : BuildState → BuildState) (s : BuildState) :
    exec (modify f) s = (.ok (), f s) := rfl

theorem exec_get (s : BuildState) : exec get s = (.ok s, s) := rfl

/-- The second step runs where the first one returns, and not where it fails. -/
theorem exec_bind (m : Build α) (f : α → Build β) (s : BuildState) :
    exec (m >>= f) s =
      match exec m s with
      | (.ok a, t) => exec (f a) t
      | (.error e, t) => (.error e, t) := by
  unfold exec
  rw [run_bind]
  rcases m.run.run s with ⟨e | a, t⟩ <;> rfl

/-- A run that does not fail is known by what it leaves. -/
theorem exec_eq_of_isSome {m : Build Unit} {s : BuildState}
    (h : (exec m s).1.toOption.isSome = true) : exec m s = (.ok (), (exec m s).2) := by
  rcases run : exec m s with ⟨e | _, t⟩
  · rw [run] at h
    exact nomatch h
  · rfl

/-- A step returns if something is known of the value that it returns. -/
theorem ok_of_exec_map {m : Build α} {s : BuildState} {f : α → β} {b : β}
    (h : (exec m s).1.toOption.map f = some b) : ∃ a t, exec m s = (.ok a, t) ∧ f a = b := by
  rcases run : exec m s with ⟨e | a, t⟩
  · rw [run] at h
    exact nomatch h
  · rw [run] at h
    exact ⟨a, t, rfl, Option.some.inj h⟩

theorem exec_visiting (name : Bytes) (step : Bool → Build α) (s : BuildState) :
    exec (visiting name step) s =
      if name ∈ s.stack then exec (step false) s
      else
        ((exec (step true) { s with stack := s.stack ++ [name] }).1,
          closing name (exec (step true) { s with stack := s.stack ++ [name] }).2) := by
  unfold visiting enter
  rw [exec_bind, exec_bind, exec_get]
  dsimp only
  by_cases isOpen : name ∈ s.stack
  · rw [if_pos isOpen, if_pos isOpen, exec_pure]
    rfl
  · rw [if_neg isOpen, if_neg isOpen, exec_bind, exec_modify]
    rfl

end

/-! ## Silent changes -/

/-- States that differ only in what no step of a class reads. -/
structure Same (s t : BuildState) : Prop where
  stack : t.stack = s.stack
  dependencies : t.dependencies = s.dependencies
  inlineEnums : t.inlineEnums = s.inlineEnums

/-- A change of nothing but the findings and the log. -/
structure Silent (s t : BuildState) : Prop extends Same s t where
  registry : t.registry = s.registry

theorem Same.refl (s : BuildState) : Same s s := ⟨rfl, rfl, rfl⟩

theorem Same.trans {s t u : BuildState} (h : Same s t) (h' : Same t u) : Same s u :=
  ⟨h'.stack.trans h.stack, h'.dependencies.trans h.dependencies,
    h'.inlineEnums.trans h.inlineEnums⟩

theorem Same.symm {s t : BuildState} (h : Same s t) : Same t s :=
  ⟨h.stack.symm, h.dependencies.symm, h.inlineEnums.symm⟩

theorem Silent.refl (s : BuildState) : Silent s s := ⟨Same.refl s, rfl⟩

theorem Silent.trans {s t u : BuildState} (h : Silent s t) (h' : Silent t u) : Silent s u :=
  ⟨h.toSame.trans h'.toSame, h'.registry.trans h.registry⟩

/-- A step runs after a report as it would from another state with the same parts. -/
theorem exec_report_bind {α : Type} (d : Diagnostic) (m : Build α) (s : BuildState) :
    ∃ t, Silent s t ∧ exec (report d >>= fun _ => m) s = exec m t :=
  ⟨{ s with diagnostics := s.diagnostics.report d }, ⟨⟨rfl, rfl, rfl⟩, rfl⟩, rfl⟩

theorem exec_write_bind {α : Type} (line : LogLine) (m : Build α) (s : BuildState) :
    ∃ t, Silent s t ∧ exec (write line >>= fun _ => m) s = exec m t :=
  ⟨{ s with log := s.log.write line }, ⟨⟨rfl, rfl, rfl⟩, rfl⟩, rfl⟩

/-! ## Rules for steps of a build -/

section

variable {α : Type} {s : BuildState} {Q : α → BuildState → Prop}

/-- A step goes on after a finding from a state that differs in no more than that. -/
theorem gives_after_report {d : Diagnostic} {f : Unit → Build α}
    (next : ∀ t, Silent s t → Gives (f ()) t Q) : Gives (report d >>= f) s Q :=
  (Gives.modify (Q := fun _ t => Silent s t) ⟨⟨rfl, rfl, rfl⟩, rfl⟩).bind fun _ => next

/-- A line changes nothing but the log. -/
theorem gives_after_line {line : LogLine} {f : Unit → Build α}
    (next : ∀ log, Gives (f ()) { s with log := log } Q) : Gives (write line >>= f) s Q := by
  refine (Gives.modify (Q := fun _ t => ∃ log, t = { s with log := log }) ⟨_, rfl⟩).bind ?_
  rintro _ _ ⟨log, rfl⟩
  exact next log

theorem gives_after_write {line : LogLine} {f : Unit → Build α}
    (next : ∀ t, Silent s t → Gives (f ()) t Q) : Gives (write line >>= f) s Q :=
  gives_after_line fun _ => next _ ⟨⟨rfl, rfl, rfl⟩, rfl⟩

/-- What a token resolves to is found without any change. -/
theorem gives_resolve (index : Index) (token subject : Bytes) (s : BuildState) :
    Gives (resolve index token subject) s
      fun target t => index.resolve? token = some target ∧ t = s := by
  unfold resolve
  cases found : index.resolve? token with
  | none => exact gives_after_report fun _ _ => Gives.throw _
  | some target => exact Gives.pure ⟨rfl, rfl⟩

/-- A name that is open already stays open. Any other one is closed again. -/
theorem gives_visiting {name : Bytes} {step : Bool → Build α}
    (isOpen : name ∈ s.stack → Gives (step false) s Q)
    (isClosed : name ∉ s.stack → Gives (step true) { s with stack := s.stack ++ [name] }
      fun a t => Q a (closing name t)) : Gives (visiting name step) s Q := by
  intro a t run
  have steps := exec_visiting name step s
  unfold exec at steps
  rw [steps] at run
  by_cases there : name ∈ s.stack
  · rw [if_pos there] at run
    exact isOpen there a t run
  · rw [if_neg there] at run
    obtain ⟨outcome, rfl⟩ := Prod.mk.inj run
    exact isClosed there a _ (Prod.ext outcome rfl)

end

/-! ## Chains of references -/

/-- A lookup of a token with the schema that was found, or the start of a chain with the number of
its references. -/
inductive Call where
  | resolve (token subject : Bytes) (target : Option NamedSchema)
  | follow (s : NamedSchema) (subject : Bytes) (references : Nat)

namespace Call

/-- A lookup has found a schema. -/
def Found : Call → Prop
  | resolve _ _ target => target.isSome = true
  | follow _ _ _ => True

/-- More references stand one after the other than may be followed. -/
def isOverlong : Call → Bool
  | resolve _ _ _ => false
  | follow _ _ references => maxHops < references

end Call

section

variable (index : Index) (subject : Bytes)

/-- The lookups along a chain of references, up to a number of them. -/
def hops : (bound : Nat) → Schema → List Call
  | bound + 1, .reference _ token =>
    .resolve token subject (index.resolve? token) ::
      match index.resolve? token with
      | some target => hops bound target.schema
      | none => []
  | _, _ => []

/-- The end of a chain of no more references than a number. -/
def chainEnd : (bound : Nat) → NamedSchema → Except FailureKind NamedSchema
  | bound, s =>
    match s.schema, bound with
    | .reference _ token, bound + 1 =>
      match index.resolve? token with
      | some target => chainEnd bound target
      | none => .error .unresolvedReference
    | .reference _ _, 0 => .error .unresolvedReference
    | _, _ => .ok s

end

variable {index : Index} {subject : Bytes}

theorem reference_or_not (s : Schema) :
    (∃ info token, s = .reference info token) ∨ s.isReference = false := by
  cases s with
  | reference info token => exact .inl ⟨info, token, rfl⟩
  | primitive | enumeration | array | object | allOf | union => exact .inr rfl

theorem hops_of_not_reference {s : Schema} (own : s.isReference = false) (bound : Nat) :
    hops index subject bound s = [] := by
  cases s with
  | reference => exact nomatch own
  | primitive | enumeration | array | object | allOf | union => simp [hops]

theorem any_isOverlong_hops (bound : Nat) (s : Schema) :
    (hops index subject bound s).any Call.isOverlong = false := by
  induction bound generalizing s with
  | zero => simp [hops]
  | succ bound ih =>
    cases s with
    | reference info token =>
      rw [hops, List.any_cons]
      cases index.resolve? token with
      | none => rfl
      | some target => exact ih target.schema
    | primitive | enumeration | array | object | allOf | union => rfl

theorem chainEnd_of_not_reference {s : NamedSchema} (own : s.schema.isReference = false)
    (bound : Nat) : chainEnd index bound s = .ok s := by
  obtain ⟨name, schema⟩ := s
  cases schema with
  | reference => exact nomatch own
  | primitive | enumeration | array | object | allOf | union => simp [chainEnd]

theorem chainEnd_of_reference {s target : NamedSchema} {info : SchemaInfo} {token : Bytes}
    (reference : s.schema = .reference info token) (resolved : index.resolve? token = some target)
    (bound : Nat) : chainEnd index (bound + 1) s = chainEnd index bound target := by
  obtain ⟨name, schema⟩ := s
  obtain rfl : schema = .reference info token := reference
  simp only [chainEnd, resolved]

/-- A chain without missing schemas ends unless it has too many references. -/
theorem chainEnd_eq {bound : Nat} {s : NamedSchema}
    (found : ∀ c, c ∈ hops index subject bound s.schema → c.Found) :
    if bound < (hops index subject (bound + 1) s.schema).length then
      chainEnd index bound s = .error .unresolvedReference
    else ∃ target, chainEnd index bound s = .ok target := by
  induction bound generalizing s with
  | zero =>
    rcases reference_or_not s.schema with ⟨info, token, reference⟩ | own
    · unfold chainEnd
      rw [reference]
      simp [hops]
    · rw [hops_of_not_reference own, chainEnd_of_not_reference own]
      exact ⟨s, rfl⟩
  | succ bound ih =>
    rcases reference_or_not s.schema with ⟨info, token, reference⟩ | own
    · rw [reference, hops] at found
      obtain ⟨first, others⟩ := List.forall_mem_cons.mp found
      obtain ⟨target, resolved⟩ := Option.isSome_iff_exists.mp first
      rw [resolved] at others
      rw [chainEnd_of_reference reference resolved, reference, hops, resolved]
      simpa using ih others
    · rw [hops_of_not_reference own, chainEnd_of_not_reference own]
      exact ⟨s, rfl⟩

/-- Following a chain leads to its end, or reports that there is none. -/
theorem exec_followFrom (bound : Nat) (s : NamedSchema) (st : BuildState) :
    ∃ u, Silent st u ∧
      exec (followFrom index subject bound s) st = (chainEnd index bound s, u) := by
  induction bound generalizing s with
  | zero =>
    obtain ⟨name, schema⟩ := s
    cases schema with
    | reference => exact exec_report_bind _ _ st
    | primitive | enumeration | array | object | allOf | union => exact ⟨st, Silent.refl st, rfl⟩
  | succ bound ih =>
    obtain ⟨name, schema⟩ := s
    cases schema with
    | reference info token =>
      unfold followFrom chainEnd Build.resolve
      dsimp only
      cases index.resolve? token with
      | none => exact exec_report_bind _ _ st
      | some target => exact ih target
    | primitive | enumeration | array | object | allOf | union => exact ⟨st, Silent.refl st, rfl⟩

/-! ## The calls of a step -/

/-- The run of a step from a state makes these calls. -/
inductive Asks : {α : Type} → Build α → BuildState → List Call → Prop
  | pure {α : Type} {a : α} {s : BuildState} : Asks (pure a) s []
  | get {s : BuildState} : Asks get s []
  | modify {f : BuildState → BuildState} {s : BuildState} : Asks (modify f) s []
  | bind_ok {α β : Type} {m : Build α} {f : α → Build β} {s t : BuildState} {a : α}
      {first later : List Call} :
      Asks m s first → exec m s = (.ok a, t) → Asks (f a) t later →
      Asks (m >>= f) s (first ++ later)
  | bind_error {α β : Type} {m : Build α} {f : α → Build β} {s t : BuildState} {e : FailureKind}
      {calls : List Call} :
      Asks m s calls → exec m s = (.error e, t) → Asks (m >>= f) s calls
  | visiting_open {α : Type} {name : Bytes} {step : Bool → Build α} {s : BuildState}
      {calls : List Call} :
      name ∈ s.stack → Asks (step false) s calls → Asks (visiting name step) s calls
  | visiting_closed {α : Type} {name : Bytes} {step : Bool → Build α} {s : BuildState}
      {calls : List Call} :
      name ∉ s.stack → Asks (step true) { s with stack := s.stack ++ [name] } calls →
      Asks (visiting name step) s calls
  | resolve {index : Index} {token subject : Bytes} {s : BuildState} :
      Asks (resolve index token subject) s [.resolve token subject (index.resolve? token)]
  | follow {index : Index} {target : NamedSchema} {subject : Bytes} {s : BuildState} :
      Asks (follow index target subject) s
        (.follow target subject (hops index subject (maxHops + 1) target.schema).length ::
          hops index subject maxHops target.schema)

namespace Asks

variable {α : Type} {m : Build α} {s : BuildState} {calls : List Call}

/-- A step whose tokens are all found returns unless it follows a chain that is too long. -/
theorem outcome (asks : Asks m s calls) (found : ∀ c, c ∈ calls → c.Found) :
    if calls.any Call.isOverlong then (exec m s).1 = .error .unresolvedReference
    else ∃ a, (exec m s).1 = .ok a := by
  induction asks with
  | pure => exact ⟨_, rfl⟩
  | get => exact ⟨_, rfl⟩
  | modify => exact ⟨_, rfl⟩
  | bind_ok _ run _ ihFirst ih =>
    obtain ⟨early, late⟩ := List.forall_mem_append.mp found
    have first := ihFirst early
    have second := ih late
    rw [run] at first
    rw [exec_bind, run, List.any_append]
    split at first
    · exact nomatch first
    · next fine => simpa [fine] using second
  | bind_error _ run ih =>
    have first := ih found
    rw [run] at first
    rw [exec_bind, run]
    split at first
    · next overlong =>
      cases first
      rw [if_pos overlong]
    · obtain ⟨_, absurd⟩ := first
      exact nomatch absurd
  | visiting_open isOpen _ ih =>
    rw [exec_visiting, if_pos isOpen]
    exact ih found
  | visiting_closed isClosed _ ih =>
    rw [exec_visiting, if_neg isClosed]
    exact ih found
  | @resolve index token subject s =>
    obtain ⟨target, resolved⟩ := Option.isSome_iff_exists.mp (found _ List.mem_cons_self)
    unfold Build.resolve
    rw [resolved]
    exact ⟨target, rfl⟩
  | @follow index target subject s =>
    obtain ⟨-, found⟩ := List.forall_mem_cons.mp found
    obtain ⟨u, -, run⟩ := @exec_followFrom index subject maxHops target s
    unfold Build.follow
    rw [run, List.any_cons, any_isOverlong_hops, Bool.or_false]
    simpa [Call.isOverlong] using chainEnd_eq found

end Asks

/-! ## Steps without missing schemas -/

/-- From every state a step looks up only tokens that refer to schemas. -/
def Answered {α : Type} (m : Build α) : Prop :=
  ∀ s, ∃ calls, Asks m s calls ∧ ∀ c, c ∈ calls → c.Found

namespace Answered

variable {α β : Type}

theorem pure (a : α) : Answered (pure a) := fun _ => ⟨[], .pure, List.forall_mem_nil _⟩

theorem get : Answered get := fun _ => ⟨[], .get, List.forall_mem_nil _⟩

theorem modify (f : BuildState → BuildState) : Answered (modify f) :=
  fun _ => ⟨[], .modify, List.forall_mem_nil _⟩

/-- The second step has to be answered for what the first one can return. -/
theorem bind {m : Build α} {f : α → Build β} (first : Answered m)
    (second : ∀ s a, (exec m s).1 = .ok a → Answered (f a)) : Answered (m >>= f) := by
  intro s
  obtain ⟨calls, asks, found⟩ := first s
  rcases run : exec m s with ⟨e | a, t⟩
  · exact ⟨calls, .bind_error asks run, found⟩
  · obtain ⟨later, asks', found'⟩ := second s a (by rw [run]) t
    exact ⟨calls ++ later, .bind_ok asks run asks', List.forall_mem_append.mpr ⟨found, found'⟩⟩

theorem visiting {name : Bytes} {step : Bool → Build α} (steps : ∀ b, Answered (step b)) :
    Answered (visiting name step) := by
  intro s
  by_cases isOpen : name ∈ s.stack
  · obtain ⟨calls, asks, found⟩ := steps false s
    exact ⟨calls, .visiting_open isOpen asks, found⟩
  · obtain ⟨calls, asks, found⟩ := steps true { s with stack := s.stack ++ [name] }
    exact ⟨calls, .visiting_closed isOpen asks, found⟩

theorem follow {s : NamedSchema}
    (found : ∀ c, c ∈ hops index subject maxHops s.schema → c.Found) :
    Answered (follow index s subject) :=
  fun _ => ⟨_, .follow, List.forall_mem_cons.mpr ⟨True.intro, found⟩⟩

end Answered

end Build

end HeaderForge
