import HeaderForge.Header.Style
import HeaderForge.Proofs.Build.Coverage
import HeaderForge.Proofs.Bytes.Sorting
import HeaderForge.Proofs.Header.Includes
/-!
# The shared runtime is there where it is included

Whether the runtime is needed is decided twice: class by class for the includes, and over all known
classes for the header itself. In both places the reflective style has a rule of its own for
records.

1. `TypeRef.holdsPointer_iff`: the search for a pointer finds one at any depth.
2. `ClassModel.Relies` says what of a class relies on the runtime in every style, and
   `Style.runtime_mem_includes_iff` which classes include it.
3. `Style.runtimeSupport_iff_included` is the result.
-/

namespace HeaderForge

/-! ## Pointers in types -/

namespace TypeRef

theorem isPointer_iff {t : TypeRef} :
    t.isPointer = true ↔ t.kind = .named ∧ t.indirect = true := by
  unfold isPointer
  cases t.kind <;> simp

mutual

theorem exists_uses_of_holdsPointer :
    (t : TypeRef) → t.holdsPointer = true → ∃ className, t.Uses className true
  | ⟨kind, name, indirect, args⟩, h => by
    rw [holdsPointer, Bool.or_eq_true] at h
    rcases h with itself | inside
    · obtain ⟨rfl, rfl⟩ := isPointer_iff.mp itself
      exact ⟨name, .itself⟩
    · obtain ⟨arg, member, className, used⟩ := exists_uses_of_anyHoldsPointer args inside
      exact ⟨className, .inside member used⟩

theorem exists_uses_of_anyHoldsPointer :
    (ts : List TypeRef) → anyHoldsPointer ts = true →
      ∃ t, t ∈ ts ∧ ∃ className, t.Uses className true
  | [], h => nomatch h
  | t :: rest, h => by
    rw [anyHoldsPointer, Bool.or_eq_true] at h
    rcases h with first | later
    · exact ⟨t, List.mem_cons_self, exists_uses_of_holdsPointer t first⟩
    · obtain ⟨u, member, used⟩ := exists_uses_of_anyHoldsPointer rest later
      exact ⟨u, List.mem_cons_of_mem _ member, used⟩

end

theorem anyHoldsPointer_eq (ts : List TypeRef) : anyHoldsPointer ts = ts.any holdsPointer := by
  induction ts with
  | nil => rfl
  | cons t rest ih => rw [anyHoldsPointer, ih, List.any_cons]

/-- A type holds a pointer exactly if a class occurs behind one anywhere in it. -/
theorem holdsPointer_iff {t : TypeRef} :
    t.holdsPointer = true ↔ ∃ className, t.Uses className true := by
  refine ⟨exists_uses_of_holdsPointer t, ?_⟩
  rintro ⟨className, used⟩
  induction used with
  | itself =>
    rw [holdsPointer, isPointer_iff.mpr ⟨rfl, rfl⟩, Bool.true_or]
  | inside member _ ih =>
    rw [holdsPointer, anyHoldsPointer_eq, List.any_eq_true.mpr ⟨_, member, ih⟩, Bool.or_true]

end TypeRef

/-! ## What relies on the runtime -/

/-- What of a class relies on the shared runtime in every style: unions and wrappers throw its
exceptions, and a pointer is written and read by it, however deep it stands in the type of a member
or in the type that the class is an alias of. -/
inductive ClassModel.Relies (c : ClassModel) : Prop
  | union : c.shape = .taggedUnion → Relies c
  | wrapper : c.shape = .dynamicWrapper → Relies c
  | member {f : Field} {className : Bytes} : c.shape = .record → f ∈ c.fields →
      f.type.Uses className true → Relies c
  | aliased {type : TypeRef} {className : Bytes} : c.shape = .aliasOf type →
      type.Uses className true → Relies c

namespace Header

theorem needsRuntime_iff {c : ClassModel} : needsRuntime c = true ↔ c.Relies := by
  constructor
  · intro needs
    unfold needsRuntime at needs
    split at needs
    · next shape => exact .union shape
    · next shape => exact .wrapper shape
    · next shape =>
      obtain ⟨f, member, holds⟩ := List.any_eq_true.mp needs
      obtain ⟨className, used⟩ := TypeRef.holdsPointer_iff.mp holds
      exact .member shape member used
    · next type shape =>
      obtain ⟨className, used⟩ := TypeRef.holdsPointer_iff.mp needs
      exact .aliased shape used
    · exact nomatch needs
  · intro relies
    unfold needsRuntime
    cases relies with
    | union shape => rw [shape]
    | wrapper shape => rw [shape]
    | member shape member used =>
      rw [shape]
      exact List.any_eq_true.mpr ⟨_, member, TypeRef.holdsPointer_iff.mpr ⟨_, used⟩⟩
    | aliased shape used =>
      rw [shape]
      exact TypeRef.holdsPointer_iff.mpr ⟨_, used⟩

/-! ## Includes -/

/-- The line that includes the shared runtime. -/
def runtimeInclude : Bytes := localInclude runtimeHeaderName

theorem runtimeInclude_ne (name : Bytes) : runtimeInclude ≠ systemInclude name := by
  intro same
  have opening := congrArg (·[9]?) same
  simp [runtimeInclude, localInclude, systemInclude, row, bytes] at opening

/-- Whatever a class includes for its shape comes from elsewhere. -/
theorem system_of_mem_shapeIncludes {c : ClassModel} {line : Bytes} (h : line ∈ shapeIncludes c) :
    ∃ name, line = systemInclude name := by
  have ofType : ∀ {t : TypeRef} {nullable : Bool}, line ∈ typeIncludes t nullable →
      ∃ name, line = systemInclude name := by
    intro t nullable inside
    obtain ⟨k, -, rfl⟩ := component_of_mem_typeIncludes inside
    exact ⟨k.header, rfl⟩
  unfold shapeIncludes at h
  split at h
  · obtain ⟨f, -, inside⟩ := List.mem_flatMap.mp h
    exact ofType inside
  · exact ofType h
  · exact ⟨_, List.mem_singleton.mp h⟩
  · rcases List.mem_append.mp h with always | pointers
    · simp only [List.mem_cons, List.not_mem_nil, or_false] at always
      rcases always with rfl | rfl | rfl <;> exact ⟨_, rfl⟩
    · split at pointers
      · exact ⟨_, List.mem_singleton.mp pointers⟩
      · exact nomatch pointers
  · exact ⟨_, List.mem_singleton.mp h⟩

theorem runtime_mem_baseIncludes_iff {c : ClassModel} :
    runtimeInclude ∈ baseIncludes c ↔ needsRuntime c = true := by
  have shape : runtimeInclude ∉ shapeIncludes c := by
    intro inside
    obtain ⟨name, same⟩ := system_of_mem_shapeIncludes inside
    exact runtimeInclude_ne name same
  have views :
      runtimeInclude ∉ if c.inlineEnums.isEmpty then [] else [systemInclude "string_view"] := by
    split
    · exact List.not_mem_nil
    · simpa using runtimeInclude_ne _
  unfold baseIncludes
  rw [Bytes.mem_sortDistinct]
  simp only [List.cons_append, List.mem_cons, List.mem_append, runtimeInclude_ne, shape, views,
    false_or]
  split
  · next needs => simp [needs, runtimeInclude]
  · next needs => simp [needs]

end Header

/-! ## The result -/

namespace Style

open Header (runtimeInclude)

theorem runtime_mem_includes_iff {style : Style} {c : ClassModel} :
    runtimeInclude ∈ style.includes c ↔ c.Relies ∨ (style = reflective ∧ c.isRecord = true) := by
  unfold includes
  rw [List.mem_append, Header.runtime_mem_baseIncludes_iff, Header.needsRuntime_iff]
  refine or_congr_right ?_
  by_cases isRecord : c.isRecord = true
  · cases style with
    | plain => simp [isRecord]
    | reflective => simp [isRecord, runtimeInclude]
    | builder => simp [isRecord, Header.runtimeInclude_ne]
  · simp [isRecord]

theorem runtimeSupport_ne_nil_iff {style : Style} {ctx : RenderContext} :
    style.runtimeSupport ctx ≠ [] ↔ style.needsRuntime ctx = true := by
  unfold runtimeSupport
  split
  · next needs => simp [needs, Header.runtimeHeader, Header.runtimeIncludes, Header.block]
  · next needs => simp [needs]

theorem needsRuntime_iff {style : Style} {ctx : RenderContext} :
    style.needsRuntime ctx = true ↔ ∃ c, c ∈ ctx.classes ∧ runtimeInclude ∈ style.includes c := by
  simp only [runtime_mem_includes_iff, ← Header.needsRuntime_iff, and_or_left, exists_or]
  unfold needsRuntime Header.anyNeedsRuntime
  rw [Bool.or_eq_true, List.any_eq_true, Bool.and_eq_true, List.any_eq_true, decide_eq_true_iff]
  refine or_congr_right ⟨?_, ?_⟩
  · rintro ⟨same, c, member, isRecord⟩
    exact ⟨c, member, same, isRecord⟩
  · rintro ⟨c, member, same, isRecord⟩
    exact ⟨same, c, member, isRecord⟩

/-- Whatever classes are known, there is a runtime in a style exactly if one of them includes it.
The classes that do are those with something in them that relies on it, and in the reflective style
all records. -/
theorem runtimeSupport_iff_included (style : Style) (ctx : RenderContext) :
    (style.runtimeSupport ctx ≠ [] ↔
      ∃ c, c ∈ ctx.classes ∧ runtimeInclude ∈ style.includes c) ∧
    ∀ c, runtimeInclude ∈ style.includes c ↔
      c.Relies ∨ (style = reflective ∧ c.shape = .record) := by
  refine ⟨runtimeSupport_ne_nil_iff.trans needsRuntime_iff, fun c => ?_⟩
  rw [runtime_mem_includes_iff, ClassModel.isRecord, decide_eq_true_iff]

end Style

end HeaderForge
