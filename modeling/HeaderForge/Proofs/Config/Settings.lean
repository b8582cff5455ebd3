import HeaderForge.Config
/-!
# Settings that a text gives

A configuration document changes the settings key by key. What holds of the defaults and is checked
wherever a setting is changed holds of all settings that a text gives, and also of those that are
left by a document that is stopped.

1. `Config.Keeps` says that a step keeps a property of the settings, with one rule for each way to
   build a step.
2. `isNamespace_of_read`: the only key that sets the namespace checks it.
-/

namespace HeaderForge

namespace Config

/-! ## Steps that keep a property -/

/-- A step keeps a property of the settings, whether it is stopped or not. -/
def Keeps {α : Type} (P : Config → Prop) (m : Step α) : Prop := ∀ c, P c → P (m.run.run c).2

section

variable {α β : Type} {P : Config → Prop}

theorem keeps_pure (a : α) : Keeps P (pure a : Step α) := fun _ holds => holds

theorem keeps_throw (message : Bytes) : Keeps P (throw message : Step α) := fun _ holds => holds

theorem Keeps.bind {m : Step α} {f : α → Step β} (first : Keeps P m) (next : ∀ a, Keeps P (f a)) :
    Keeps P (m >>= f) := by
  intro c holds
  have after := first c holds
  rw [ExceptT.run_bind, StateT.run_bind]
  rcases ran : m.run.run c with ⟨e | a, d⟩
  · rw [ran] at after
    exact after
  · rw [ran] at after
    exact next a d after

theorem keeps_modify {f : Config → Config} (h : ∀ c, P c → P (f c)) :
    Keeps P (modify f : Step Unit) :=
  h

theorem keeps_ite {φ : Prop} [Decidable φ] {m n : Step α} (yes : φ → Keeps P m)
    (no : Keeps P n) : Keeps P (if φ then m else n) := by
  by_cases holds : φ
  · rw [if_pos holds]
    exact yes holds
  · rw [if_neg holds]
    exact no

/-! ## Values -/

theorem keeps_expectString (key : Bytes) (n : Node) : Keeps P (expectString key n) := by
  unfold expectString
  split
  · exact keeps_pure _
  · exact keeps_throw _

theorem keeps_expectBool (key : Bytes) (n : Node) : Keeps P (expectBool key n) := by
  unfold expectBool
  split
  · exact keeps_pure _
  · exact keeps_throw _

theorem keeps_expectEntries (key : Bytes) (n : Node) : Keeps P (expectEntries key n) := by
  unfold expectEntries
  split
  · exact keeps_pure _
  · exact keeps_throw _

theorem keeps_forScalars (key : Bytes) {store : Bytes → Bytes → Step Unit}
    (stores : ∀ entry text, Keeps P (store entry text)) (entries : List (Bytes × Node)) :
    Keeps P (forScalars key store entries) := by
  induction entries with
  | nil => exact keeps_pure ()
  | cons first rest ih =>
    obtain ⟨entry, n⟩ := first
    rw [forScalars]
    split
    · exact (stores _ _).bind fun _ => ih
    · exact keeps_throw _

theorem keeps_atKey (n : Node) (context key : Bytes) {f : Bytes → Node → Step Unit}
    (values : ∀ key value, Keeps P (f key value)) : Keeps P (atKey n context key f) := by
  unfold atKey
  split
  · exact values _ _
  · exact keeps_pure ()

end

/-! ## Sections of a document -/

section

variable {P : Config → Prop}

/-- The rules of linting do not matter for the property. -/
def FreeOfLint (P : Config → Prop) : Prop := ∀ c lint, P c → P { c with lint := lint }

/-- Neither does what is said about schemas. -/
def FreeOfSchemas (P : Config → Prop) : Prop := ∀ c schemas, P c → P { c with schemas := schemas }

theorem keeps_applyRules (free : FreeOfLint P) (rules : List (Bytes × Node)) :
    Keeps P (applyRules rules) := by
  have level : ∀ (name : Bytes) (n : Node), Keeps P (ruleLevel name n) := by
    intro name n
    unfold ruleLevel
    dsimp only
    split
    all_goals
      refine Keeps.bind (by first | exact keeps_pure _ | exact keeps_throw _) fun level => ?_
      split
      · exact keeps_pure _
      · exact keeps_throw _
  induction rules with
  | nil => exact keeps_pure ()
  | cons first rest ih =>
    obtain ⟨name, n⟩ := first
    rw [applyRules]
    split
    · exact keeps_throw _
    · refine (level name n).bind fun severity => ?_
      exact (keeps_modify fun c => free c _).bind fun _ => ih

theorem keeps_applyLint (free : FreeOfLint P) (n : Node) : Keeps P (applyLint n) := by
  have rules : Keeps P (applyRuleSection n) := by
    unfold applyRuleSection
    split
    · exact keeps_pure ()
    · exact (keeps_expectEntries _ _).bind fun _ => keeps_applyRules free _
  unfold applyLint
  refine (keeps_expectEntries _ _).bind fun _ => ?_
  split
  · exact rules
  · refine (keeps_expectBool _ _).bind fun enabled => ?_
    split
    · exact rules
    · exact keeps_modify fun c => free c _

theorem keeps_applySchemas (free : FreeOfSchemas P) (entries : List (Bytes × Node)) :
    Keeps P (applySchemas entries) := by
  have stores : ∀ name f, Keeps P (modifySchema name f) := fun name f =>
    keeps_modify fun c => free c _
  have one : ∀ name n, Keeps P (applySchema name n) := by
    intro name n
    unfold applySchema
    refine (stores _ _).bind fun _ => (keeps_expectEntries _ _).bind fun _ => ?_
    refine (keeps_atKey _ _ _ fun key value => ?_).bind fun _ => ?_
    · exact (keeps_expectString _ _).bind fun _ => stores _ _
    refine (keeps_atKey _ _ _ fun key value => ?_).bind fun _ => ?_
    · exact (keeps_expectEntries _ _).bind fun _ => keeps_forScalars _ (fun _ _ => stores _ _) _
    refine (keeps_atKey _ _ _ fun key value => ?_).bind fun _ => ?_
    · exact (keeps_expectEntries _ _).bind fun _ => keeps_forScalars _ (fun _ _ => stores _ _) _
    refine keeps_atKey _ _ _ fun key value => ?_
    exact (keeps_expectBool _ _).bind fun _ => stores _ _
  induction entries with
  | nil => exact keeps_pure ()
  | cons first rest ih => exact (one _ _).bind fun _ => ih

end

/-! ## Checked namespaces -/

/-- The namespace that code is generated in is one. -/
def NamespaceChecked (c : Config) : Prop := isNamespace c.targetNamespace = true

theorem keeps_applyKey (key : Bytes) (n : Node) : Keeps NamespaceChecked (applyKey key n) := by
  -- A change of any other setting leaves the namespace as it is.
  have string : ∀ f : Bytes → Config → Config,
      (∀ value c, (f value c).targetNamespace = c.targetNamespace) →
      Keeps NamespaceChecked (expectString key n >>= fun value => modify (f value)) :=
    fun f same => (keeps_expectString _ _).bind fun value => keeps_modify fun c checked => by
      rw [NamespaceChecked, same]
      exact checked
  have bool : ∀ f : Bool → Config → Config,
      (∀ value c, (f value c).targetNamespace = c.targetNamespace) →
      Keeps NamespaceChecked (expectBool key n >>= fun value => modify (f value)) :=
    fun f same => (keeps_expectBool _ _).bind fun value => keeps_modify fun c checked => by
      rw [NamespaceChecked, same]
      exact checked
  unfold applyKey
  refine keeps_ite (fun _ => string (fun value c => { c with style := value }) fun _ _ => rfl) ?_
  refine keeps_ite (fun _ => string (fun value c => { c with outputDir := value }) fun _ _ => rfl) ?_
  refine keeps_ite (fun _ => string (fun value c => { c with projectDir := value }) fun _ _ => rfl)
    ?_
  refine keeps_ite (fun _ => ?_) ?_
  · unfold applyNamespace
    refine (keeps_expectString _ _).bind fun value => ?_
    exact keeps_ite (fun checked => keeps_modify fun c _ => checked) (keeps_throw _)
  refine keeps_ite (fun _ => bool (fun value c => { c with useJsonKey := value }) fun _ _ => rfl) ?_
  refine keeps_ite (fun _ => bool (fun value c => { c with generateDocs := value }) fun _ _ => rfl)
    ?_
  refine keeps_ite (fun _ => bool (fun value c => { c with incremental := value }) fun _ _ => rfl)
    ?_
  refine keeps_ite (fun _ => ?_) ?_
  · unfold applyLogLevel
    refine (keeps_expectString _ _).bind fun value => ?_
    split
    · exact keeps_modify fun c checked => checked
    · exact keeps_throw _
  refine keeps_ite (fun _ => keeps_applyLint (fun c lint checked => checked) n) ?_
  refine keeps_ite (fun _ => ?_) (keeps_pure ())
  exact (keeps_expectEntries _ _).bind fun _ =>
    keeps_applySchemas (fun c schemas checked => checked) _

theorem keeps_applyDocument (n : Node) : Keeps NamespaceChecked (applyDocument n) := by
  have keys : ∀ entries, Keeps NamespaceChecked (applyKeys entries) := by
    intro entries
    induction entries with
    | nil => exact keeps_pure ()
    | cons first rest ih => exact (keeps_applyKey _ _).bind fun _ => ih
  unfold applyDocument
  split
  · exact keeps_pure ()
  · exact keys _
  · exact keeps_throw _

theorem isNamespace_of_read {t : Bytes} {c : Config} (h : read t = .ok c) :
    isNamespace c.targetNamespace = true := by
  unfold read at h
  rcases parsed : (Document.read t).mapError fun detail => (⟨.configInvalid, detail⟩ : Failure)
    with failure | n
  · rw [parsed] at h
    exact nomatch h
  · rw [parsed] at h
    have checked := keeps_applyDocument n standard (by unfold NamespaceChecked; decide)
    rcases ran : (applyDocument n).run.run standard with ⟨detail | _, d⟩
    all_goals simp only [bind, Except.bind, apply, ran] at h
    · exact nomatch h
    · rw [ran] at checked
      cases h
      exact checked

end Config

end HeaderForge
