import HeaderForge.Proofs.Build.Calls
/-!
# What a step makes, from whatever state

Much of what a class is made of does not depend on the state that its steps start from. `Makes P m Q`
says so: whatever the step `m` returns has the property `Q`, no finding is lost on the way, no class
is registered, and each enumeration that is declared has the property `P`.

The rules follow the ways to combine steps. `makes_resolve` and `makes_follow` are the steps that
read an index.
-/

namespace HeaderForge

namespace Build

/-! ## States that follow on one another -/

/-- What holds between the state before steps of a class and the state after them, where `P` holds
of the enumerations that they declare. -/
structure Onward (P : EnumDef → Prop) (s t : BuildState) : Prop where
  registry : t.registry = s.registry
  findings : s.diagnostics <+: t.diagnostics
  enums : ∀ e, e ∈ t.inlineEnums → e ∈ s.inlineEnums ∨ P e

variable {P : EnumDef → Prop}

theorem Onward.refl (s : BuildState) : Onward P s s :=
  ⟨rfl, List.prefix_refl _, fun _ he => .inl he⟩

theorem Onward.trans {s t u : BuildState} (h : Onward P s t) (h' : Onward P t u) :
    Onward P s u := by
  refine ⟨h'.registry.trans h.registry, h.findings.trans h'.findings, fun e he => ?_⟩
  cases h'.enums e he with
  | inl before => exact h.enums e before
  | inr declared => exact .inr declared

theorem prefix_report (found : Diagnostics) (d : Diagnostic) : found <+: found.report d := by
  unfold Diagnostics.report
  split
  · exact List.prefix_refl _
  · exact List.prefix_append _ _

/-! ## Rules -/

/-- Where a step returns, `Q` holds of the value, and what it leaves follows on its start. -/
def Makes (P : EnumDef → Prop) {α : Type} (m : Build α) (Q : α → Prop) : Prop :=
  ∀ s, Gives m s fun a t => Onward P s t ∧ Q a

namespace Makes

variable {α β : Type} {m : Build α} {Q : α → Prop} {R : β → Prop}

theorem pure {a : α} (h : Q a) : Makes P (pure a) Q := fun s => Gives.pure ⟨Onward.refl s, h⟩

theorem throw (e : FailureKind) : Makes P (throw e) Q := fun _ => Gives.throw e

theorem mono {Q' : α → Prop} (h : Makes P m Q) (more : ∀ a, Q a → Q' a) : Makes P m Q' :=
  fun s => (h s).mono fun a _ ⟨onward, holds⟩ => ⟨onward, more a holds⟩

theorem bind {f : α → Build β} (first : Makes P m Q) (next : ∀ a, Q a → Makes P (f a) R) :
    Makes P (m >>= f) R := by
  intro s
  refine (first s).bind fun a t ⟨onward, holds⟩ => ?_
  exact (next a holds t).mono fun b u ⟨onward', holds'⟩ => ⟨onward.trans onward', holds'⟩

theorem modify {f : BuildState → BuildState} (h : ∀ s, Onward P s (f s)) :
    Makes P (modify f) fun _ => True :=
  fun s => Gives.modify ⟨h s, trivial⟩

theorem report (d : Diagnostic) : Makes P (report d) fun _ => True :=
  modify fun s => ⟨rfl, prefix_report s.diagnostics d, fun _ he => .inl he⟩

theorem warning (rule subject message : Bytes) :
    Makes P (warning rule subject message) fun _ => True :=
  report _

theorem detail (tag message : Bytes) : Makes P (detail tag message) fun _ => True :=
  modify fun _ => ⟨rfl, List.prefix_refl _, fun _ he => .inl he⟩

end Makes

theorem makes_modifyDependencies (f : List Dependency → List Dependency) :
    Makes P (modify fun s : BuildState => { s with dependencies := f s.dependencies })
      fun _ => True :=
  Makes.modify fun _ => ⟨rfl, List.prefix_refl _, fun _ he => .inl he⟩

/-! ## Steps that read an index -/

section

variable (index : Index)

theorem makes_resolve (token subject : Bytes) :
    Makes P (resolve index token subject) fun target => index.resolve? token = some target := by
  intro s
  refine (gives_resolve index token subject s).mono fun target t ⟨found, same⟩ => ⟨?_, found⟩
  rw [same]
  exact Onward.refl s

theorem makes_followFrom (subject : Bytes) (bound : Nat) (s : NamedSchema) :
    Makes P (followFrom index subject bound s) fun target =>
      chainEnd index bound s = .ok target := by
  induction bound generalizing s with
  | zero =>
    obtain ⟨name, schema⟩ := s
    cases schema with
    | reference => exact (Makes.report _).bind fun _ _ => Makes.throw _
    | primitive | enumeration | array | object | allOf | union => exact Makes.pure rfl
  | succ bound ih =>
    rcases reference_or_not s.schema with ⟨info, token, reference⟩ | own
    · unfold followFrom
      rw [reference]
      refine (makes_resolve index token subject).bind fun target found => ?_
      refine (ih target).mono fun last ends => ?_
      rw [chainEnd_of_reference reference found, ends]
    · obtain ⟨name, schema⟩ := s
      cases schema with
      | reference => cases own
      | primitive | enumeration | array | object | allOf | union => exact Makes.pure rfl

/-- What is followed to its end is the end of its chain. -/
theorem makes_follow (s : NamedSchema) (subject : Bytes) :
    Makes P (follow index s subject) fun target => chainEnd index maxHops s = .ok target :=
  makes_followFrom index subject maxHops s

end

end Build

end HeaderForge
