import HeaderForge.Proofs.Build.Calls
/-!
# Steps that run alike

The class of a schema is built by steps that read an index. To compare two builds, every step of the
one is compared with the step of the other that stands at its place.

1. `Keeps` is what every step of a class leaves as it was: the open names, the finished classes, and
   the names of the enumerations declared so far. A property `D` that all dependencies have stays
   one that all have.
2. `Alike D A P m n` says that `m` keeps all that and looks up only tokens that refer to schemas,
   that `P` holds of what it returns, and that `n` does from a state like that of `m` what `m` does.
   The latter is only promised where the enumerations that `m` declares have names with the property
   `A`: their names are what depends on the rest of an index.

The rules for `Alike` follow the ways to combine steps, so the proofs about the steps of a class go
along their definitions.
-/

namespace HeaderForge

namespace Build

/-! ## What a step keeps -/

/-- What holds between the state before a step of a class and the state after it. -/
structure Keeps (D : Dependency → Prop) (s t : BuildState) : Prop where
  stack : t.stack = s.stack
  registry : t.registry = s.registry
  enums : ∀ e, e ∈ s.inlineEnums → ∃ e', e' ∈ t.inlineEnums ∧ e'.name = e.name
  dependencies : (∀ d, d ∈ s.dependencies → D d) → ∀ d, d ∈ t.dependencies → D d

variable {D : Dependency → Prop} {A : Bytes → Prop}

theorem Keeps.refl (s : BuildState) : Keeps D s s :=
  ⟨rfl, rfl, fun e he => ⟨e, he, rfl⟩, fun all => all⟩

theorem Keeps.trans {s t u : BuildState} (h : Keeps D s t) (h' : Keeps D t u) : Keeps D s u := by
  refine ⟨h'.stack.trans h.stack, h'.registry.trans h.registry, fun e he => ?_,
    fun all => h'.dependencies (h.dependencies all)⟩
  obtain ⟨e₁, he₁, same₁⟩ := h.enums e he
  obtain ⟨e₂, he₂, same₂⟩ := h'.enums e₁ he₁
  exact ⟨e₂, he₂, same₂.trans same₁⟩

theorem Silent.keeps {s t : BuildState} (h : Silent s t) : Keeps D s t :=
  ⟨h.stack, h.registry, fun e he => ⟨e, by rw [h.inlineEnums]; exact he, rfl⟩,
    fun all d hd => all d (by rw [← h.dependencies]; exact hd)⟩

/-! ## Steps that run alike -/

structure Alike (D : Dependency → Prop) (A : Bytes → Prop) {α : Type} (P : α → Prop)
    (m n : Build α) : Prop where
  keeps : ∀ s, Keeps D s (exec m s).2
  post : ∀ s a, (exec m s).1 = .ok a → P a
  same : ∀ s t, Same s t → (∀ e, e ∈ (exec m s).2.inlineEnums → A e.name) →
    (exec n t).1 = (exec m s).1 ∧ Same (exec m s).2 (exec n t).2
  answered : Answered m

namespace Alike

variable {α β : Type} {P : α → Prop} {Q : β → Prop} {m n : Build α}

theorem pure {a : α} (holds : P a) : Alike D A P (pure a) (pure a) := by
  refine ⟨Keeps.refl, fun s b h => ?_, fun s t same _ => ⟨rfl, same⟩, Answered.pure a⟩
  cases h
  exact holds

/-- Steps that go on after steps which run alike run alike if they do so for every value that the
first one can return. -/
theorem bind {f g : α → Build β} (first : Alike D A P m n)
    (second : ∀ a, P a → Alike D A Q (f a) (g a)) : Alike D A Q (m >>= f) (n >>= g) := by
  -- Each part follows the outcome of the first step, and a failure of it is that of the whole.
  refine ⟨?_, ?_, ?_,
    first.answered.bind fun s a h => (second a (first.post s a h)).answered⟩
  · intro s
    rw [exec_bind]
    have keeps := first.keeps s
    have post := first.post s
    rcases run : exec m s with ⟨_ | a, u⟩
    · rw [run] at keeps
      exact keeps
    · rw [run] at keeps post
      exact keeps.trans ((second a (post a rfl)).keeps u)
  · intro s b h
    rw [exec_bind] at h
    have post := first.post s
    rcases run : exec m s with ⟨_ | a, u⟩
    · rw [run] at h
      exact nomatch h
    · rw [run] at h post
      exact (second a (post a rfl)).post u b h
  · intro s t same named
    rw [exec_bind] at named
    rw [exec_bind, exec_bind]
    have post := first.post s
    have alike := first.same s t same
    rcases run : exec m s with ⟨_ | a, u⟩
    · rw [run] at alike named
      rcases run' : exec n t with ⟨outcome, u'⟩
      rw [run'] at alike
      obtain ⟨rfl, same'⟩ := alike named
      exact ⟨rfl, same'⟩
    · rw [run] at alike named post
      -- The names that the first step has declared are still there after the second one.
      have earlier : ∀ e, e ∈ u.inlineEnums → A e.name := fun e he => by
        obtain ⟨e', he', name⟩ := ((second a (post a rfl)).keeps u).enums e he
        rw [← name]
        exact named e' he'
      rcases run' : exec n t with ⟨outcome, u'⟩
      rw [run'] at alike
      obtain ⟨rfl, same'⟩ := alike earlier
      exact (second a (post a rfl)).same u u' same' named

theorem weaken {P' : α → Prop} (h : Alike D A P m n) (imp : ∀ a, P a → P' a) :
    Alike D A P' m n :=
  ⟨h.keeps, fun s a ok => imp a (h.post s a ok), h.same, h.answered⟩

theorem trivial (h : Alike D A P m n) : Alike D A (fun _ => True) m n :=
  h.weaken fun _ _ => True.intro

/-- Steps that end in the same way and change nothing but the findings and the log. -/
theorem ofSilent {r : Except FailureKind α} (answered : Answered m) (holds : ∀ a, r = .ok a → P a)
    (left : ∀ s, (exec m s).1 = r ∧ Silent s (exec m s).2)
    (right : ∀ s, (exec n s).1 = r ∧ Silent s (exec n s).2) : Alike D A P m n := by
  refine ⟨fun s => (left s).2.keeps, fun s a h => ?_, fun s t same _ => ⟨?_, ?_⟩, answered⟩
  · exact holds a ((left s).1.symm.trans h)
  · rw [(left s).1, (right t).1]
  · exact ((left s).2.toSame.symm.trans same).trans (right t).2.toSame

theorem modify {f : BuildState → BuildState} (keeps : ∀ s, Keeps D s (f s))
    (same : ∀ s t, Same s t → Same (f s) (f t)) :
    Alike D A (fun _ => True) (modify f) (modify f) :=
  ⟨keeps, fun _ _ _ => True.intro, fun s t h _ => ⟨rfl, same s t h⟩, Answered.modify f⟩

theorem report (d d' : Diagnostic) : Alike D A (fun _ => True) (report d) (report d') :=
  ofSilent (r := .ok ()) (Answered.modify _) (fun _ _ => True.intro)
    (fun _ => ⟨rfl, ⟨rfl, rfl, rfl⟩, rfl⟩) fun _ => ⟨rfl, ⟨rfl, rfl, rfl⟩, rfl⟩

theorem write (line line' : LogLine) : Alike D A (fun _ => True) (write line) (write line') :=
  ofSilent (r := .ok ()) (Answered.modify _) (fun _ _ => True.intro)
    (fun _ => ⟨rfl, ⟨rfl, rfl, rfl⟩, rfl⟩) fun _ => ⟨rfl, ⟨rfl, rfl, rfl⟩, rfl⟩

theorem detail (tag message message' : Bytes) :
    Alike D A (fun _ => True) (detail tag message) (detail tag message') :=
  write _ _

theorem warning (rule subject message message' : Bytes) :
    Alike D A (fun _ => True) (warning rule subject message) (warning rule subject message') :=
  report _ _

/-- A name is closed again after the step that it was opened for, so what is open stays the same. -/
theorem visiting {f g : Bool → Build α} (name : Bytes) (step : ∀ b, Alike D A P (f b) (g b)) :
    Alike D A P (visiting name f) (visiting name g) := by
  refine ⟨?_, ?_, ?_, Answered.visiting fun b => (step b).answered⟩
  · intro s
    rw [exec_visiting]
    split
    · exact (step false).keeps s
    · next closed =>
      have keeps := (step true).keeps { s with stack := s.stack ++ [name] }
      refine ⟨?_, keeps.registry, keeps.enums, keeps.dependencies⟩
      -- The name was not open before, so the one that is closed is the one that was opened.
      show List.erase _ name = s.stack
      rw [keeps.stack, List.erase_append_right _ closed]
      simp
  · intro s a h
    rw [exec_visiting] at h
    split at h
    · exact (step false).post _ _ h
    · exact (step true).post _ _ h
  · intro s t same named
    rw [exec_visiting] at named
    rw [exec_visiting, exec_visiting, same.stack]
    split
    · next isOpen =>
      rw [if_pos isOpen] at named
      exact (step false).same s t same named
    · next closed =>
      rw [if_neg closed] at named
      obtain ⟨outcome, same'⟩ := (step true).same { s with stack := s.stack ++ [name] }
        { t with stack := s.stack ++ [name] } ⟨rfl, same.dependencies, same.inlineEnums⟩ named
      refine ⟨outcome, ?_, same'.dependencies, same'.inlineEnums⟩
      show List.erase _ name = List.erase _ name
      rw [same'.stack]

end Alike

end Build

end HeaderForge
