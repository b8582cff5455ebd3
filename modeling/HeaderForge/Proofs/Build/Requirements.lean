import HeaderForge.Header.Fields
import HeaderForge.Proofs.Build.Registry
import HeaderForge.Proofs.Build.Resemblance
import HeaderForge.Proofs.Build.UnionAgreement
/-!
# What is required does not matter for types

The keys that an object requires decide how a value is read and written, and nothing else. The steps
that plan a union search for properties, so for them the properties have to come in the same order.

1. `simulation_of_fixed` and `agree_planUnion`: unions are planned in the same way.
2. `buildAll_withoutRequired`: from indexes that differ only in what is required, all classes are
   built alike but for the required flags of fields, and the same data members are declared.
-/

namespace HeaderForge

open List (Forall₂)

namespace Build

variable {l : Leeway} {i j : Index}

/-! ## Looks -/

theorem describe_eq {s s' : Schema} (schemas : s.Resembles l s') : s'.describe = s.describe := by
  cases schemas with
  | union _ _ kind => cases kind <;> rfl
  | primitive | enumeration | reference | array | object | allOf => rfl

theorem sameMember_of_resembles {s s' : Schema} (schemas : s.Resembles l s') : s.SameMember s' :=
  ⟨schemas.token?_eq, describe_eq schemas⟩

/-- Where the properties come in the same order, schemas that resemble each other look alike. -/
theorem simulation_of_fixed (indexes : i.Resembles l j) (fixed : l.order = false) :
    i.Simulation (Schema.Resembles l) j := by
  refine ⟨indexes.length_eq, fun token => ?_, fun s s' schemas => ?_⟩
  · rcases rel_cases (indexes.resolve? token) with ⟨here, there⟩ | ⟨a, b, here, there, related⟩
    · rw [here, there]
      exact .none
    · rw [here, there]
      exact .some ⟨related.name, related.schema⟩
  · cases schemas with
    | primitive => exact .primitive
    | enumeration => exact .enumeration
    | reference => exact .reference
    | array => exact .array
    | object _ _ entries arranges =>
      exact .object
        (Schema.Resembles.lookup entries arranges fun free => nomatch fixed.symm.trans free)
    | allOf _ _ members => exact .allOf members
    | union => exact .union

/-- Then they declare the same keys in the same order. -/
theorem ownKeys_eq {s s' : Schema} (fixed : l.order = false) (schemas : s.Resembles l s') :
    s.ownKeys = s'.ownKeys := by
  cases schemas with
  | object _ _ entries arranges =>
    rw [Leeway.Arranges, fixed] at arranges
    exact arranges ▸ Schema.Resembles.keys_eq entries
  | primitive | enumeration | reference | array | allOf | union => rfl

/-! ## Plans -/

section

variable (indexes : i.Resembles l j) (fixed : l.order = false)
include indexes fixed

theorem concur_findTagging (owner : Bytes) (discriminator : Option Discriminator)
    {variants variants' : List NamedSchema}
    (related : Forall₂ (NamedSchema.Related (Schema.Resembles l)) variants variants') :
    Concur (Option.Rel (SameTagging i (Index.mappingOf discriminator)
        (Index.mappingOf discriminator)))
      (findTagging i owner discriminator variants) (findTagging j owner discriminator variants') := by
  have sim := simulation_of_fixed indexes fixed
  cases discriminator with
  | some d => exact concur_findTagging_some sim owner rfl (.refl d.mapping) related
  | none =>
    unfold findTagging
    cases related with
    | nil => exact Concur.pure .none
    | cons head tail =>
      have append : ∀ keys keys' more more' : List Bytes, keys = keys' → more = more' →
          keys ++ more = keys' ++ more' := by
        rintro keys _ more _ rfl rfl
        rfl
      refine (concur_propertyKeys sim (fun _ _ => ownKeys_eq fixed) rfl append
        (fun _ _ same => same ▸ rfl) head owner).bind fun keys _ same => ?_
      subst same
      refine (concur_implicitTagging sim owner (.cons head tail) keys).weaken fun found _ same => ?_
      subst same
      cases found with
      | none => exact .none
      | some t => exact .some (SameTagging.refl i t)

/-- Unions are planned in the same way when their properties come in the same order. -/
theorem agree_planUnion (owner : Bytes) (kind : UnionKind) {members members' : List Schema}
    (related : Forall₂ (Schema.Resembles l) members members')
    (discriminator : Option Discriminator) :
    Agree Eq (planUnion i owner kind members discriminator)
      (planUnion j owner kind members' discriminator) := by
  refine ((concur_planUnion_of (simulation_of_fixed indexes fixed) (.refl _) rfl
    (fun variants variants' _ related => ?_) kind
    (related.imp fun _ _ => sameMember_of_resembles)).weaken fun _ _ same => same.eq.symm).agree
  exact concur_findTagging indexes fixed owner discriminator related

theorem agree_buildUnion (settings : ModelSettings) {a b : NamedSchema}
    (related : a.Resembles l b) (kind : UnionKind) {members members' : List Schema}
    (alike : Forall₂ (Schema.Resembles l) members members')
    (discriminator : Option Discriminator) :
    Agree l.SameClass (buildUnion i settings a kind members discriminator)
      (buildUnion j settings b kind members' discriminator) := by
  unfold buildUnion
  rw [related.name, outline_eq settings related]
  refine (agree_planUnion indexes fixed a.name kind alike discriminator).bind fun plan _ same => ?_
  subst same
  have variant : unionVariant j settings a.name = unionVariant i settings a.name := by
    funext others t
    unfold unionVariant
    rw [indexes.closesCycle_eq]
  dsimp only
  rw [variant]
  split
  · split
    · refine Agree.bind (R := Eq) (Agree.modify ?_) fun _ _ _ => Agree.pure rfl
      exact fun s t same =>
        ⟨same.stack, congrArg (variantDependencies _) same.dependencies, same.inlineEnums⟩
    · exact Agree.after (R := l.SameClass) (Agree.pure rfl) (Agree.warning _ _ _ _)
  · exact Agree.pure rfl

/-- With the properties in the same order the classes of all schemas agree, unions too. -/
theorem agree_buildClass_of_fixed (settings : ModelSettings) {a b : NamedSchema}
    (related : a.Resembles l b) :
    Agree l.SameClass (buildClass i settings a) (buildClass j settings b) := by
  refine agree_buildClass settings related.name (agree_buildShape indexes settings related
    (fun free => nomatch fixed.symm.trans free) (fun free => nomatch fixed.symm.trans free)
    fun union => ?_)
  unfold buildShape
  obtain ⟨name, s⟩ := a
  obtain ⟨name', s'⟩ := b
  have schemas : s.Resembles l s' := related.schema
  cases schemas with
  | union info n kind discriminator members =>
    exact agree_buildUnion indexes fixed settings related kind members discriminator
  | primitive | enumeration | reference | array | object | allOf => exact nomatch union

end

/-! ## Whole builds -/

/-- The same tokens are looked up in both indexes, so all of them resolve in both or in neither. -/
theorem resolved_iff (indexes : i.Resembles l j) : j.Resolved ↔ i.Resolved := by
  have resolves : ∀ token, (∃ t, j.resolve? token = some t) ↔ ∃ t, i.resolve? token = some t := by
    intro token
    rw [← Option.isSome_iff_exists, ← Option.isSome_iff_exists,
      ← Option.isSome_map (f := NamedSchema.name), indexes.resolve?_name_eq, Option.isSome_map]
  unfold Index.Resolved
  simp only [resolves]
  unfold Index.Resembles at indexes
  generalize i.named = xs at indexes ⊢
  generalize j.named = ys at indexes ⊢
  induction indexes with
  | nil => exact Iff.rfl
  | cons head _ ih =>
    rw [List.forall_mem_cons, List.forall_mem_cons]
    refine and_congr ?_ ih
    simp only [head.schema.mem_mentions 0]

/-- So the check of all references ends alike. -/
theorem agree_checkAll (indexes : i.Resembles l j) : Agree Eq (checkAll i) (checkAll j) := by
  intro s t same
  have states := ((silent_reporting i (allReferences i.named) s).toSame.symm.trans same).trans
    (silent_reporting j (allReferences j.named) t).toSame
  have ends : broken j (allReferences j.named) = [] ↔ broken i (allReferences i.named) = [] := by
    rw [broken_eq_nil_iff, broken_eq_nil_iff, resolved_iff indexes]
  rw [exec_checkAll, exec_checkAll]
  by_cases none : broken i (allReferences i.named) = []
  · rw [if_pos none, if_pos (ends.mpr none)]
    exact ⟨.ok rfl, states⟩
  · rw [if_neg none, if_neg fun found => none (ends.mp found)]
    exact ⟨.error _, states⟩

theorem silent_of_checkAll (index : Index) (st : BuildState) :
    Silent st (exec (checkAll index) st).2 := by
  rw [exec_checkAll]
  exact silent_reporting index _ st

end Build

/-! ## Registries -/

namespace Leeway

variable (l : Leeway)

/-- A registry as far as its classes show. -/
def shownRegistry (r : Registry) : Registry :=
  { r with classes := r.classes.map l.shownClass }

theorem findSchema?_shownRegistry (r : Registry) (schemaName : Bytes) :
    (l.shownRegistry r).findSchema? schemaName =
      (r.findSchema? schemaName).map l.shownClass := by
  unfold Registry.findSchema? shownRegistry
  rw [Option.map_bind]
  exact congrArg _ (funext fun slot => List.getElem?_map)

/-- Classes are put by their names, which always show. -/
theorem shownRegistry_put (r : Registry) (c : ClassModel) :
    l.shownRegistry (r.put c) = (l.shownRegistry r).put (l.shownClass c) := by
  have released (slot : Nat) :
      (l.shownRegistry r).released slot (l.shownClass c) = r.released slot c := by
    unfold Registry.released shownRegistry
    rw [List.getElem?_map]
    cases r.classes[slot]? <;> rfl
  unfold Registry.put
  rw [show (l.shownRegistry r).byName.lookup (l.shownClass c).name = r.byName.lookup c.name from rfl]
  cases r.byName.lookup c.name with
  | none => simp [shownRegistry, shownClass]
  | some slot =>
    dsimp only
    rw [released]
    simp [shownRegistry, shownClass, List.map_set]

end Leeway

namespace Build

section

variable {l : Leeway} {i j : Index} (indexes : i.Resembles l j) (fixed : l.order = false)
  (settings : ModelSettings)
include indexes fixed

/-- Building class after class from both indexes ends alike, in registries that show the same. -/
theorem buildEach_shows (resolved : i.Resolved) (resolved' : j.Resolved)
    {schemas schemas' : List NamedSchema} (related : Forall₂ (NamedSchema.Resembles l) schemas schemas')
    (members : ∀ s, s ∈ schemas → s ∈ i.named) (members' : ∀ s, s ∈ schemas' → s ∈ j.named)
    {st st' : BuildState} (closed : st.stack = []) (closed' : st'.stack = [])
    (shows : l.shownRegistry st'.registry = l.shownRegistry st.registry) :
    (exec (buildEach j settings schemas') st').1 = (exec (buildEach i settings schemas) st).1 ∧
      l.shownRegistry (exec (buildEach j settings schemas') st').2.registry =
        l.shownRegistry (exec (buildEach i settings schemas) st).2.registry := by
  induction related generalizing st st' with
  | nil => exact ⟨rfl, shows⟩
  | @cons a b rest rest' head _ ih =>
    obtain ⟨name, inside, stay⟩ := inside_of_resolved resolved (members a List.mem_cons_self)
    obtain ⟨name', inside', stay'⟩ := inside_of_resolved resolved' (members' b List.mem_cons_self)
    have keeps := @keeps_of_buildClass _ _ _ (Index.Twins.refl resolved) settings a name inside stay
      st closed
    have keeps' := @keeps_of_buildClass _ _ _ (Index.Twins.refl resolved') settings b name' inside'
      stay' st' closed'
    have outcome := outcome_of_agree (agree_buildClass_of_fixed indexes fixed settings head)
      (closed'.trans closed.symm)
    rw [buildEach, buildEach, exec_bind, exec_bind]
    rcases run : exec (buildClass i settings a) st with ⟨x, u⟩
    rcases run' : exec (buildClass j settings b) st' with ⟨y, u'⟩
    rw [run, run'] at outcome
    rw [run] at keeps
    rw [run'] at keeps'
    cases outcome with
    | error e =>
      refine ⟨rfl, ?_⟩
      rw [keeps.2, keeps'.2, shows]
    | @ok c c' same =>
      obtain ⟨v, silent, registered⟩ := exec_register c u
      obtain ⟨v', silent', registered'⟩ := exec_register c' u'
      dsimp only
      rw [exec_bind, exec_bind, registered, registered']
      refine ih (fun s hs => members s (List.mem_cons_of_mem _ hs))
        (fun s hs => members' s (List.mem_cons_of_mem _ hs)) (silent.stack.trans keeps.1)
        (silent'.stack.trans keeps'.1) ?_
      dsimp only
      rw [l.shownRegistry_put, l.shownRegistry_put, keeps.2, keeps'.2, shows, same]

theorem buildAll_shows :
    (exec (buildAll j settings) start).1 = (exec (buildAll i settings) start).1 ∧
      l.shownRegistry (exec (buildAll j settings) start).2.registry =
        l.shownRegistry (exec (buildAll i settings) start).2.registry := by
  have outcome := (agree_checkAll indexes start start (Same.refl start)).1
  have silent := silent_of_checkAll i start
  have silent' := silent_of_checkAll j start
  have shows : l.shownRegistry (exec (checkAll j) start).2.registry =
      l.shownRegistry (exec (checkAll i) start).2.registry := by
    rw [silent.registry, silent'.registry]
  unfold buildAll
  rw [exec_bind, exec_bind]
  rcases checked : exec (checkAll i) start with ⟨x, u⟩
  rcases checked' : exec (checkAll j) start with ⟨y, u'⟩
  rw [checked, checked'] at outcome shows
  rw [checked] at silent
  rw [checked'] at silent'
  cases outcome with
  | error e => exact ⟨rfl, shows⟩
  | ok =>
    exact buildEach_shows indexes fixed settings (resolved_of_checkAll checked).1
      (resolved_of_checkAll checked').1 indexes (fun _ hs => hs) (fun _ hs => hs) silent.stack
      silent'.stack shows

end

end Build

/-! ## Classes without requirements -/

/-- The class with no field marked as required. -/
def ClassModel.withoutRequired (c : ClassModel) : ClassModel :=
  { c with fields := c.fields.map fun f => { f with required := false } }

/-- The classes are the same but for the required flags of their fields, and declare the same data
members. -/
structure ClassModel.SameButRequired (c c' : ClassModel) : Prop where
  model : c'.withoutRequired = c.withoutRequired
  dataMembers : ∀ ctx endsWith withDocs,
    Header.dataMembers ctx c' endsWith withDocs = Header.dataMembers ctx c endsWith withDocs

/-- No data member shows whether its field is required. -/
theorem Header.dataMembers_withoutRequired (ctx : RenderContext) (c : ClassModel) (endsWith : Bytes)
    (withDocs : Bool) :
    dataMembers ctx c.withoutRequired endsWith withDocs = dataMembers ctx c endsWith withDocs := by
  unfold dataMembers ClassModel.withoutRequired
  rw [List.flatMap_map]
  rfl

theorem ClassModel.SameButRequired.of_sameClass {c c' : ClassModel}
    (same : Leeway.requiredOnly.SameClass c c') : c.SameButRequired c' := by
  have model : c'.withoutRequired = c.withoutRequired := same
  refine ⟨model, fun ctx endsWith withDocs => ?_⟩
  rw [← Header.dataMembers_withoutRequired, model, Header.dataMembers_withoutRequired]

namespace Build

/-- What objects require has no influence on types. From indexes that differ in nothing else, every
class is built alike, and so is the whole registry: the builds end in the same way, and a schema has
a class in one registry when it has one in the other, with the same names, types, nullability,
inline enumerations and dependencies. -/
theorem buildAll_withoutRequired {i j : Index} (indexes : i.Resembles .requiredOnly j)
    (settings : ModelSettings) :
    (∀ a b, (a, b) ∈ i.named.zip j.named → ∀ st st' : BuildState, st'.stack = st.stack →
      Outcome ClassModel.SameButRequired (exec (buildClass i settings a) st).1
        (exec (buildClass j settings b) st').1) ∧
    (exec (buildAll j settings) start).1 = (exec (buildAll i settings) start).1 ∧
    ∀ schemaName, Option.Rel ClassModel.SameButRequired
      ((exec (buildAll i settings) start).2.registry.findSchema? schemaName)
      ((exec (buildAll j settings) start).2.registry.findSchema? schemaName) := by
  obtain ⟨ends, shows⟩ := buildAll_shows indexes rfl settings
  refine ⟨fun a b pair st st' stack => ?_, ends, fun schemaName => ?_⟩
  · have classes := agree_buildClass_of_fixed indexes rfl settings
      (resembles_of_mem_zip indexes pair).2
    exact outcome_of_agree (classes.weaken fun _ _ => .of_sameClass) stack
  · have found := congrArg (Registry.findSchema? · schemaName) shows
    rw [Leeway.findSchema?_shownRegistry, Leeway.findSchema?_shownRegistry] at found
    generalize (exec (buildAll i settings) start).2.registry.findSchema? schemaName = x at found ⊢
    generalize (exec (buildAll j settings) start).2.registry.findSchema? schemaName = y at found ⊢
    cases x with
    | none =>
      cases y with
      | none => exact .none
      | some c' => exact nomatch found
    | some c =>
      cases y with
      | none => exact nomatch found
      | some c' => exact .some (.of_sameClass (Option.some.inj found))

/-- A cat with a kind, which may be required, and pets that are cats. -/
def exCats (required : List Bytes) : Index where
  dialect := .openapi3
  version := bytes "3"
  named := [⟨bytes "Cat", .object exInfo
      [(bytes "kind", .enumeration exInfo ⟨[⟨bytes "cat", true⟩], [], []⟩)] required .closed⟩,
    ⟨bytes "Pet", .union exInfo .oneOf [exLink (bytes "Cat")] none⟩]

/-- Which schemas have a class, of which shape, with which required flags. -/
def exFlags (st : BuildState) : List (Bytes × Bytes × List Bool) :=
  st.registry.classes.map fun c => (c.schemaName, c.shape.text, c.fields.map Field.required)

theorem buildAll_withoutRequired_exCats :
    exFlags (exec (buildAll (exCats []) ⟨false, []⟩) start).2 =
        [(bytes "Cat", bytes "record", [false]), (bytes "Pet", bytes "tagged union", [])] ∧
      exFlags (exec (buildAll (exCats [bytes "kind"]) ⟨false, []⟩) start).2 =
        [(bytes "Cat", bytes "record", [true]), (bytes "Pet", bytes "tagged union", [])] ∧
      ∀ schemaName, Option.Rel ClassModel.SameButRequired
        ((exec (buildAll (exCats []) ⟨false, []⟩) start).2.registry.findSchema? schemaName)
        ((exec (buildAll (exCats [bytes "kind"]) ⟨false, []⟩) start).2.registry.findSchema?
          schemaName) := by
  have cat : Schema.Resembles .requiredOnly (exCats []).named[0].schema
      (exCats [bytes "kind"]).named[0].schema :=
    .object exInfo exInfo.source (.cons (.intro _ (.enumeration exInfo exInfo.source _)) .nil) rfl
      (.inl rfl) .closed
  have pet : Schema.Resembles .requiredOnly (exCats []).named[1].schema
      (exCats [bytes "kind"]).named[1].schema :=
    .union exInfo exInfo.source _ _ (.cons (.reference exInfo exInfo.source _) .nil)
  have indexes : (exCats []).Resembles .requiredOnly (exCats [bytes "kind"]) :=
    .cons ⟨rfl, cat⟩ (.cons ⟨rfl, pet⟩ .nil)
  exact ⟨by decide +kernel, by decide +kernel,
    (buildAll_withoutRequired indexes ⟨false, []⟩).2.2⟩

end Build

end HeaderForge
