import HeaderForge.Failure
/-!
# What a step gives

Builds and work on files are steps that change a state and may fail. `Gives m s Q` says that `Q`
holds of the value and of the state after it where the step `m` returns from the state `s`. There is
one rule for each way to combine steps, so a proof about a step goes along its definition. `Returns`
says that a step does return.
-/

namespace HeaderForge

variable {σ α β : Type}

/-- The second step runs where the first one returns, and not where it fails. -/
theorem run_bind (m : ExceptT FailureKind (StateM σ) α) (f : α → ExceptT FailureKind (StateM σ) β)
    (s : σ) :
    (m >>= f).run.run s =
      match m.run.run s with
      | (.ok a, t) => (f a).run.run t
      | (.error e, t) => (.error e, t) := by
  rw [ExceptT.run_bind, StateT.run_bind]
  cases m.run.run s with
  | mk outcome t => cases outcome <;> rfl

/-- Where two steps return, both have returned. -/
theorem ok_of_run_bind {m : ExceptT FailureKind (StateM σ) α}
    {f : α → ExceptT FailureKind (StateM σ) β} {s u : σ} {b : β}
    (h : (m >>= f).run.run s = (.ok b, u)) :
    ∃ a t, m.run.run s = (.ok a, t) ∧ (f a).run.run t = (.ok b, u) := by
  rw [run_bind] at h
  rcases ran : m.run.run s with ⟨e | a, t⟩
  · rw [ran] at h
    exact nomatch h
  · rw [ran] at h
    exact ⟨a, t, rfl, h⟩

def Gives (m : ExceptT FailureKind (StateM σ) α) (s : σ) (Q : α → σ → Prop) : Prop :=
  ∀ a t, m.run.run s = (.ok a, t) → Q a t

namespace Gives

variable {m : ExceptT FailureKind (StateM σ) α} {s : σ} {Q : α → σ → Prop}

theorem mono {Q' : α → σ → Prop} (h : Gives m s Q) (more : ∀ a t, Q a t → Q' a t) :
    Gives m s Q' :=
  fun a t run => more a t (h a t run)

/-- Nothing but the value and the state of the step. -/
theorem run (m : ExceptT FailureKind (StateM σ) α) (s : σ) :
    Gives m s fun a t => m.run.run s = (.ok a, t) :=
  fun _ _ run => run

/-- Whatever a step gives, it says no more than that it returned. -/
theorem any (m : ExceptT FailureKind (StateM σ) α) (s : σ) : Gives m s fun _ _ => True :=
  fun _ _ _ => trivial

theorem pure {a : α} (h : Q a s) : Gives (pure a) s Q := by
  intro b t run
  cases run
  exact h

theorem throw (e : FailureKind) : Gives (throw e) s Q := fun _ _ run => nomatch run

/-- The second step goes on from where the first one returned. -/
theorem bind {f : α → ExceptT FailureKind (StateM σ) β} {R : β → σ → Prop} (first : Gives m s Q)
    (next : ∀ a t, Q a t → Gives (f a) t R) : Gives (m >>= f) s R := by
  intro b u run
  obtain ⟨a, t, ran, run⟩ := ok_of_run_bind run
  exact next a t (first a t ran) b u run

theorem modify {f : σ → σ} {Q : Unit → σ → Prop} (h : Q () (f s)) :
    Gives (modify f : ExceptT FailureKind (StateM σ) Unit) s Q := by
  intro a t run
  cases run
  exact h

end Gives

/-- A step does not fail from a state. -/
def Returns (m : ExceptT FailureKind (StateM σ) α) (s : σ) : Prop :=
  ∃ a t, m.run.run s = (.ok a, t)

namespace Returns

variable {m : ExceptT FailureKind (StateM σ) α} {s : σ}

theorem pure (a : α) (s : σ) : Returns (pure a : ExceptT FailureKind (StateM σ) α) s := ⟨a, s, rfl⟩

theorem modify (f : σ → σ) (s : σ) :
    Returns (modify f : ExceptT FailureKind (StateM σ) Unit) s :=
  ⟨(), f s, rfl⟩

/-- The second step has to return from where the first one does. -/
theorem bind {f : α → ExceptT FailureKind (StateM σ) β} {Q : α → σ → Prop} (first : Returns m s)
    (gives : Gives m s Q) (next : ∀ a t, Q a t → Returns (f a) t) : Returns (m >>= f) s := by
  obtain ⟨a, t, ran⟩ := first
  obtain ⟨b, u, ran'⟩ := next a t (gives a t ran)
  exact ⟨b, u, by rw [run_bind, ran]; exact ran'⟩

theorem andThen {f : α → ExceptT FailureKind (StateM σ) β} (first : Returns m s)
    (next : ∀ a t, Returns (f a) t) : Returns (m >>= f) s :=
  first.bind (Gives.any m s) fun a t _ => next a t

end Returns

end HeaderForge
