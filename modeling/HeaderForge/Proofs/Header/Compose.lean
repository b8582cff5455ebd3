import HeaderForge.Header.Compose
import HeaderForge.Proofs.Build.Classes
/-!
# What a header reads of other classes

All that the header of a class takes from the registry are the forward declarations of the classes
that it holds indirectly. Two registries in which these classes are declared alike give the same
text.
-/

namespace HeaderForge

/-- A place for a class among other classes. -/
def RenderContext.among (ctx : RenderContext) (r : Registry) : RenderContext :=
  { ctx with registry := some r }

namespace Header

variable {style : Style} {ctx : RenderContext} {r r' : Registry} {c : ClassModel}

/-- The declaration of a class does not depend on the classes that are known. -/
theorem declare_among (r : Registry) : style.declare (ctx.among r) c = style.declare ctx c := by
  unfold Style.declare
  split
  · cases style <;> rfl
  · rfl
  · rfl
  · rfl
  · rfl

/-- A class that knows its variants, if it is a tagged union, has a header. -/
theorem compose_ok (h : c.shape = .taggedUnion → c.union.isSome = true) :
    ∃ text, compose style ctx c = .ok text := by
  have declared : ∃ lines, style.declare ctx c = .ok lines := by
    unfold Style.declare
    split
    · exact ⟨_, rfl⟩
    · exact ⟨_, rfl⟩
    · exact ⟨_, rfl⟩
    · exact ⟨_, rfl⟩
    · next union =>
      obtain ⟨u, known⟩ := Option.isSome_iff_exists.mp (h union)
      rw [known]
      exact ⟨_, rfl⟩
  obtain ⟨lines, declared⟩ := declared
  unfold compose
  rw [declared]
  exact ⟨_, rfl⟩

section

variable (same : ∀ d, d ∈ otherDependencies c →
  forwardDeclaration? style (ctx.among r) d = forwardDeclaration? style (ctx.among r') d)
include same

theorem trailingIncludes_eq :
    trailingIncludes style (ctx.among r) c = trailingIncludes style (ctx.among r') c := by
  unfold trailingIncludes
  rw [List.filter_congr fun d hd => by rw [same d hd]]

theorem leadingIncludes_eq :
    leadingIncludes style (ctx.among r) c = leadingIncludes style (ctx.among r') c := by
  have kept : ((otherDependencies c).filter fun d =>
        (forwardDeclaration? style (ctx.among r) d).isNone) =
      (otherDependencies c).filter fun d =>
        (forwardDeclaration? style (ctx.among r') d).isNone :=
    List.filter_congr fun d hd => by rw [same d hd]
  unfold leadingIncludes
  rw [kept, trailingIncludes_eq same]

/-- A header is the same among classes that are declared ahead alike. -/
theorem compose_eq : compose style (ctx.among r) c = compose style (ctx.among r') c := by
  have forward : forwardDeclarations style (ctx.among r) c =
      forwardDeclarations style (ctx.among r') c := by
    unfold forwardDeclarations
    rw [List.filterMap_congr same]
  have around_eq : ∀ declaration, around style (ctx.among r) c declaration =
      around style (ctx.among r') c declaration := by
    intro declaration
    unfold around
    rw [forward, trailingIncludes_eq same, leadingIncludes_eq same]
    -- The rest reads the namespace and the switch for comments, which the contexts share.
    rfl
  unfold compose
  rw [declare_among, declare_among]
  simp only [around_eq]

end

/-- A class is declared ahead as its form says. -/
theorem declarable_eq_of_form {c c' : ClassModel}
    (h : Build.shapeForm c.shape = Build.shapeForm c'.shape) :
    isDeclarable c = isDeclarable c' ∧ style.classKey c = style.classKey c' := by
  unfold isDeclarable Style.classKey ClassModel.isRecord
  cases shape : c.shape <;> cases shape' : c'.shape <;>
    simp_all [Build.shapeForm]

/-- A class that is held directly is not declared ahead. -/
theorem forwardDeclaration?_of_direct {d : Dependency} (h : d.indirect = false) :
    forwardDeclaration? style ctx d = none := by
  unfold forwardDeclaration?
  split
  · rw [h, Bool.false_and]
    rfl
  · rfl

/-- A dependency is declared alike where its name stands for classes of the same form, if it is
held indirectly at all. -/
theorem forwardDeclaration?_eq {d : Dependency}
    (h : d.indirect = true → ∃ target target', r.find? d.className = some target ∧
      r'.find? d.className = some target' ∧
      Build.shapeForm target.shape = Build.shapeForm target'.shape) :
    forwardDeclaration? style (ctx.among r) d = forwardDeclaration? style (ctx.among r') d := by
  by_cases indirect : d.indirect = true
  · obtain ⟨target, target', found, found', form⟩ := h indirect
    obtain ⟨declarable, key⟩ := @declarable_eq_of_form style _ _ form
    have here : (ctx.among r).find? d.className = some target := found
    have there : (ctx.among r').find? d.className = some target' := found'
    unfold forwardDeclaration?
    rw [here, there]
    simp only [declarable, key]
  · have direct : d.indirect = false := by simpa using indirect
    rw [forwardDeclaration?_of_direct direct, forwardDeclaration?_of_direct direct]

end Header

end HeaderForge
