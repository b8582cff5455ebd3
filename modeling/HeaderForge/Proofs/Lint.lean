import HeaderForge.Lint
import HeaderForge.Proofs.Build.References
import HeaderForge.Proofs.Schema.Index
import HeaderForge.Proofs.Schema.Mentions
/-!
# Broken references in two checks

The linter goes through the schemas with a bound on its depth and finds each broken token once. The
check before a build goes through them without a bound and reports every broken reference. Both
meet the same tokens as far as the linter comes, which is as far as a document is read, but for one
thing: the linter counts the properties beside an `allOf` as one level more than the document has.

1. `checkReferences_eq`: the linter finds the tokens that are broken among the mentions in its
   reach, each once.
2. `missing_run`: what comes of them in a run.
3. `run_missing` relates the tokens that the linter finds to those that the check reports. They are
   the same if all that are broken are in reach, as they are without parts beside an `allOf`.
   `not_found_of_broken` is a token that only the check reports.
-/

namespace HeaderForge

namespace Lint

variable {index : Index}

/-! ## Tokens that are found anew -/

theorem checkTokens_append (index : Index) (known xs ys : List Bytes) :
    checkTokens index known (xs ++ ys) = checkTokens index known xs ++
      checkTokens index (known ++ checkTokens index known xs) ys := by
  induction xs generalizing known with
  | nil => simp [checkTokens]
  | cons token rest ih =>
    rw [List.cons_append, checkTokens, checkTokens, ih]
    simp only [List.append_assoc]

theorem checkTokens_singleton (index : Index) (known : List Bytes) (token : Bytes) :
    checkTokens index known [token] = checkReference index known token := by
  simp [checkTokens]

theorem mem_checkReference {known : List Bytes} {token other : Bytes} :
    other ∈ checkReference index known token ↔
      other = token ∧ index.resolve? other = none ∧ other ∉ known := by
  unfold checkReference
  split
  · next resolves =>
    refine iff_of_false List.not_mem_nil ?_
    rintro ⟨rfl, broken, -⟩
    rw [broken] at resolves
    exact nomatch resolves
  · next broken =>
    have broken : index.resolve? token = none := Option.not_isSome_iff_eq_none.mp broken
    split
    · next before =>
      refine iff_of_false List.not_mem_nil ?_
      rintro ⟨rfl, -, new⟩
      exact new before
    · next new =>
      rw [List.mem_singleton]
      refine ⟨?_, And.left⟩
      rintro rfl
      exact ⟨rfl, broken, new⟩

theorem mem_checkTokens {known tokens : List Bytes} {token : Bytes} :
    token ∈ checkTokens index known tokens ↔
      token ∈ tokens ∧ index.resolve? token = none ∧ token ∉ known := by
  induction tokens generalizing known with
  | nil => simp [checkTokens]
  | cons first rest ih =>
    rw [checkTokens, List.mem_append, ih, mem_checkReference, List.mem_append, mem_checkReference,
      List.mem_cons]
    grind

theorem nodup_checkTokens (index : Index) (known tokens : List Bytes) :
    (checkTokens index known tokens).Nodup := by
  induction tokens generalizing known with
  | nil => exact List.nodup_nil
  | cons first rest ih =>
    rw [checkTokens]
    refine List.nodup_append.mpr ⟨?_, ih _, fun a found b later same => ?_⟩
    · unfold checkReference
      split
      · exact List.nodup_nil
      · split
        · exact List.nodup_nil
        · exact List.nodup_singleton first
    · subst same
      exact (mem_checkTokens.mp later).2.2 (List.mem_append_right _ found)

/-! ## Reach -/

/-- The tokens of the mentions that the linter comes to. -/
def inReach (mentions : List Mention) : List Bytes :=
  (mentions.filter fun m => m.depth ≤ maxDepth).map Mention.token

theorem inReach_append (xs ys : List Mention) : inReach (xs ++ ys) = inReach xs ++ inReach ys := by
  simp [inReach]

mutual
/-- What a schema mentions stands no higher than the schema. -/
theorem le_depth_of_mem_mentions (depth : Nat) (m : Mention) : ∀ s : Schema,
    m ∈ s.mentions depth → depth ≤ m.depth
  | .reference _ token, h => by
    obtain rfl : m = ⟨token, depth, false⟩ := List.mem_singleton.mp h
    exact Nat.le_refl depth
  | .array _ (some items), h => Nat.le_of_succ_le (le_depth_of_mem_mentions (depth + 1) m items h)
  | .object _ properties _ (.each extra), h => by
    rw [Schema.mentions] at h
    rcases List.mem_append.mp h with declared | others
    · exact Nat.le_of_succ_le
        (le_depth_of_mem_mentionsOfProperties (depth + 1) m properties declared)
    · exact Nat.le_of_succ_le (le_depth_of_mem_mentions (depth + 1) m extra others)
  | .object _ properties _ .closed, h | .object _ properties _ .anything, h =>
    Nat.le_of_succ_le (le_depth_of_mem_mentionsOfProperties (depth + 1) m properties h)
  | .allOf _ members, h =>
    Nat.le_of_succ_le (le_depth_of_mem_mentionsOfMembers (depth + 1) m members h)
  | .union _ _ members discriminator, h => by
    rw [Schema.mentions] at h
    rcases List.mem_append.mp h with inMember | target
    · exact Nat.le_of_succ_le (le_depth_of_mem_mentionsOfMembers (depth + 1) m members inMember)
    · exact Nat.le_of_eq (Schema.mem_mentions_discriminator.mp target).2.2.symm
  | .primitive _, h | .enumeration _ _, h | .array _ none, h => nomatch h

theorem le_depth_of_mem_mentionsOfMembers (depth : Nat) (m : Mention) : ∀ members : List Schema,
    m ∈ Schema.mentionsOfMembers depth members → depth ≤ m.depth
  | [], h => nomatch h
  | member :: rest, h => by
    rw [Schema.mentionsOfMembers] at h
    rcases List.mem_append.mp h with here | later
    · exact le_depth_of_mem_mentions depth m member here
    · exact le_depth_of_mem_mentionsOfMembers depth m rest later

theorem le_depth_of_mem_mentionsOfProperties (depth : Nat) (m : Mention) :
    ∀ properties : List (Bytes × Schema),
      m ∈ Schema.mentionsOfProperties depth properties → depth ≤ m.depth
  | [], h => nomatch h
  | (_, property) :: rest, h => by
    rw [Schema.mentionsOfProperties] at h
    rcases List.mem_append.mp h with here | later
    · exact le_depth_of_mem_mentions depth m property here
    · exact le_depth_of_mem_mentionsOfProperties depth m rest later
end

/-- Nothing is in reach in a schema that is too deep itself. -/
theorem inReach_of_deep {depth : Nat} (deep : maxDepth < depth) (s : Schema) :
    inReach (s.mentions depth) = [] := by
  rw [inReach, List.map_eq_nil_iff, List.filter_eq_nil_iff]
  intro m member
  have below := le_depth_of_mem_mentions depth m s member
  simp only [decide_eq_true_eq]
  omega

theorem inReach_discriminator {depth : Nat} (shallow : depth ≤ maxDepth)
    (d : Option Discriminator) :
    inReach (Discriminator.mentions depth d) = Discriminator.tokens d := by
  rw [inReach, List.filter_eq_self.mpr]
  · cases d <;> simp [Discriminator.mentions, Discriminator.tokens]
  · intro m member
    rw [(Schema.mem_mentions_discriminator.mp member).2.2]
    exact decide_eq_true shallow

mutual
/-- The linter finds what is broken among the mentions in its reach. -/
theorem checkReferences_eq (index : Index) (depth : Nat) (known : List Bytes) (s : Schema) :
    checkReferences index depth known s = checkTokens index known (inReach (s.mentions depth)) := by
  by_cases deep : maxDepth < depth
  · rw [inReach_of_deep deep, checkTokens]
    unfold checkReferences
    rw [if_pos deep]
  · have shallow : depth ≤ maxDepth := Nat.le_of_not_lt deep
    unfold checkReferences
    rw [if_neg deep]
    match s with
    | .reference _ token => simp [Schema.mentions, inReach, shallow, checkTokens_singleton]
    | .array _ (some items) =>
      rw [Schema.mentions]
      exact checkReferences_eq index (depth + 1) known items
    | .object _ properties _ (.each extra) =>
      rw [Schema.mentions, inReach_append, checkTokens_append,
        ← checkPropertyTypes_eq index (depth + 1) known properties]
      exact congrArg _ (checkReferences_eq index (depth + 1) _ extra)
    | .object _ properties _ .closed | .object _ properties _ .anything =>
      exact checkPropertyTypes_eq index (depth + 1) known properties
    | .allOf _ members =>
      rw [Schema.mentions]
      exact checkMembers_eq index (depth + 1) known members
    | .union _ _ members discriminator =>
      rw [Schema.mentions, inReach_append, checkTokens_append, inReach_discriminator shallow,
        ← checkMembers_eq index (depth + 1) known members]
    | .primitive _ | .enumeration _ _ | .array _ none => rfl

theorem checkMembers_eq (index : Index) (depth : Nat) (known : List Bytes) :
    ∀ members : List Schema, checkMembers index depth known members =
      checkTokens index known (inReach (Schema.mentionsOfMembers depth members))
  | [] => rfl
  | member :: rest => by
    rw [Schema.mentionsOfMembers, inReach_append, checkTokens_append,
      ← checkReferences_eq index depth known member, checkMembers]
    exact congrArg _ (checkMembers_eq index depth _ rest)

theorem checkPropertyTypes_eq (index : Index) (depth : Nat) (known : List Bytes) :
    ∀ properties : List (Bytes × Schema), checkPropertyTypes index depth known properties =
      checkTokens index known (inReach (Schema.mentionsOfProperties depth properties))
  | [] => rfl
  | (_, property) :: rest => by
    rw [Schema.mentionsOfProperties, inReach_append, checkTokens_append,
      ← checkReferences_eq index depth known property, checkPropertyTypes]
    exact congrArg _ (checkPropertyTypes_eq index depth _ rest)
end

/-! ## Runs -/

/-- The references that are found in schemas in order, each a token beside its owner. -/
def foundIn (index : Index) : (known : List Bytes) → List NamedSchema → List (Bytes × Bytes)
  | _, [] => []
  | known, s :: rest =>
    let broken := checkReferences index 0 known s.schema
    Build.references s.name broken ++ foundIn index (known ++ broken) rest

theorem tokens_foundIn (index : Index) (known : List Bytes) (schemas : List NamedSchema) :
    (foundIn index known schemas).map Prod.snd =
      checkTokens index known (schemas.flatMap fun s => inReach (s.schema.mentions 0)) := by
  induction schemas generalizing known with
  | nil => rfl
  | cons s rest ih =>
    rw [foundIn, List.map_append, ih, List.flatMap_cons, checkTokens_append, checkReferences_eq]
    rw [Build.tokens_references]

theorem mem_broken_of_mem_foundIn {known : List Bytes} {schemas : List NamedSchema}
    {reference : Bytes × Bytes} (h : reference ∈ foundIn index known schemas) :
    reference ∈ Build.broken index (Build.allReferences schemas) := by
  induction schemas generalizing known with
  | nil => exact nomatch h
  | cons s rest ih =>
    rw [Build.broken, List.mem_filter, Build.mem_allReferences]
    rcases List.mem_append.mp h with here | later
    · obtain ⟨token, found, rfl⟩ := List.mem_map.mp here
      rw [checkReferences_eq] at found
      obtain ⟨inside, unresolved, -⟩ := mem_checkTokens.mp found
      obtain ⟨m, member, rfl⟩ := List.mem_map.mp inside
      exact ⟨⟨s, List.mem_cons_self, m, List.mem_of_mem_filter member, rfl⟩, by simp [unresolved]⟩
    · have broken := ih later
      rw [Build.broken, List.mem_filter, Build.mem_allReferences] at broken
      obtain ⟨⟨other, member, mention⟩, unresolved⟩ := broken
      exact ⟨⟨other, List.mem_cons_of_mem _ member, mention⟩, unresolved⟩

theorem rule_of_mem_checkProperty {owner key : Bytes} {required : List Bytes} {s : Schema}
    {f : Finding} (h : f ∈ checkProperty owner required key s) : f.rule ≠ .missingRefTarget := by
  obtain ⟨⟨rule, problem⟩, member, rfl⟩ := List.mem_map.mp h
  simp only [List.mem_filterMap, List.mem_cons, List.not_mem_nil, or_false, id_eq,
    exists_eq_right] at member
  rcases member with type | identifier | format | items
  · unfold typeProblem? at type
    grind
  · unfold idProblem? at identifier
    grind
  · unfold formatFinding? at format
    split at format
    · obtain ⟨_, -, same⟩ := Option.map_eq_some_iff.mp format.symm
      cases same
      exact nofun
    · exact nomatch format
  · unfold itemsProblem? at items
    grind

theorem rule_of_mem_checkProperties {owner : Bytes} {properties : List (Bytes × Schema)}
    {required : List Bytes} {f : Finding} (h : f ∈ checkProperties owner properties required) :
    f.rule ≠ .missingRefTarget := by
  obtain ⟨property, -, member⟩ := List.mem_flatMap.mp h
  exact rule_of_mem_checkProperty member

/-- The other checks of a schema find nothing by the rule about references. -/
theorem rule_of_mem_checkShape {s : NamedSchema} {f : Finding} (h : f ∈ checkShape s) :
    f.rule ≠ .missingRefTarget := by
  unfold checkShape at h
  split at h
  · rw [List.mem_singleton.mp h]
    exact nofun
  · rcases List.mem_append.mp h with empty | declared
    · split at empty
      · rw [List.mem_singleton.mp empty]
        exact nofun
      · exact nomatch empty
    · exact rule_of_mem_checkProperties declared
  · split at h
    · exact nomatch h
    · rw [List.mem_singleton.mp h]
      exact nofun
  · rw [List.mem_singleton.mp h]
    exact nofun
  · obtain ⟨member, -, found⟩ := List.mem_flatMap.mp h
    unfold checkMember at found
    split at found
    · exact rule_of_mem_checkProperties found
    · exact nomatch found
  · exact nomatch h

theorem missing_findings (index : Index) (known : List Bytes) (schemas : List NamedSchema) :
    (findings index known schemas).filter (fun f => f.rule = .missingRefTarget) =
      (foundIn index known schemas).map fun reference =>
        brokenReference reference.1 reference.2 := by
  induction schemas generalizing known with
  | nil => rfl
  | cons s rest ih =>
    have others : (checkShape s).filter (fun f => f.rule = .missingRefTarget) = [] :=
      List.filter_eq_nil_iff.mpr fun f member => by simpa using rule_of_mem_checkShape member
    have broken : ((checkReferences index 0 known s.schema).map (brokenReference s.name)).filter
        (fun f => f.rule = .missingRefTarget) =
          (checkReferences index 0 known s.schema).map (brokenReference s.name) :=
      List.filter_eq_self.mpr fun f member => by
        obtain ⟨token, -, rfl⟩ := List.mem_map.mp member
        rfl
    rw [findings, List.filter_append, List.filter_append, others, broken, ih, foundIn,
      List.map_append]
    simp [Build.references]

theorem foldl_report (found ds : Diagnostics) :
    ds.foldl Diagnostics.report found = found ++ ds.filter fun d => d.level ≠ .off := by
  induction ds generalizing found with
  | nil => simp
  | cons d rest ih =>
    rw [List.foldl_cons, ih, Diagnostics.report]
    by_cases off : d.level = .off
    · simp [off]
    · simp [off]

theorem text_eq_missing_iff (rule : LintRule) :
    rule.text = LintRule.missingRefTarget.text ↔ rule = .missingRefTarget := by
  cases rule <;> decide

/-- What the linter says of a broken reference, a token beside its owner. -/
def missing (config : LintConfig) (reference : Bytes × Bytes) : Diagnostic :=
  (brokenReference reference.1 reference.2).diagnostic config

theorem missing_injective (config : LintConfig) : Function.Injective (missing config) := by
  rintro ⟨owner, token⟩ ⟨other, another⟩ same
  obtain ⟨-, -, rfl, message⟩ := Diagnostic.mk.inj same
  exact congrArg _ (List.append_cancel_left (List.append_cancel_right
    (List.append_cancel_right (List.append_cancel_right message))))

/-- What a run says by the rule about references is what it finds among them. -/
theorem missing_run {config : LintConfig} (on : config.missingRefTarget ≠ .off) (index : Index) :
    (run index config).filter (fun d => d.rule = LintRule.missingRefTarget.text) =
      (foundIn index [] index.named).map (missing config) := by
  have same : ∀ f : Finding,
      (decide ((f.diagnostic config).rule = LintRule.missingRefTarget.text) &&
        decide ((f.diagnostic config).level ≠ .off)) = decide (f.rule = .missingRefTarget) := by
    intro f
    by_cases rule : f.rule = .missingRefTarget
    · simp [Finding.diagnostic, rule, LintConfig.level, on]
    · simp [Finding.diagnostic, text_eq_missing_iff, rule]
  rw [run, foldl_report, List.nil_append, List.filter_filter, List.filter_map]
  simp only [Function.comp_def, same]
  rw [missing_findings, List.map_map]
  rfl

end Lint

/-! ## The linter and the check -/

namespace Index

/-- A token stands in the document of an index, so many levels below a named schema, a number of
which lead to parts beside an `allOf`. -/
def Holds (index : Index) (token : Bytes) (levels beside : Nat) : Prop :=
  ∃ s, s ∈ index.named ∧ ∃ inMapping, s.schema.info.source.Holds token inMapping levels beside

/-- A token stands where the linter comes to, as it counts the levels. -/
def WithinReach (index : Index) (token : Bytes) : Prop :=
  ∃ levels beside, index.Holds token levels beside ∧ levels + beside ≤ Lint.maxDepth

end Index

namespace Lint

section

variable {doc : Node} {index : Index} (read : Index.ofDocument doc = .ok index)

include read

theorem exists_mention_iff_holds (token : Bytes) (P : Nat → Prop) :
    (∃ s, s ∈ index.named ∧ ∃ m, m ∈ s.schema.mentions 0 ∧ m.token = token ∧ P m.depth) ↔
      ∃ levels beside, index.Holds token levels beside ∧ P (levels + beside) := by
  constructor
  · rintro ⟨s, hs, m, member, rfl, depth⟩
    obtain ⟨levels, beside, holds, same⟩ :=
      (Schema.mem_mentions_iff_holds (Index.reads_of_ofDocument read hs) 0 m).mp member
    rw [same, Nat.zero_add] at depth
    exact ⟨levels, beside, ⟨s, hs, m.inMapping, holds⟩, depth⟩
  · rintro ⟨levels, beside, ⟨s, hs, inMapping, holds⟩, depth⟩
    refine ⟨s, hs, ⟨token, levels + beside, inMapping⟩, ?_, rfl, depth⟩
    refine (Schema.mem_mentions_iff_holds (Index.reads_of_ofDocument read hs) 0 _).mpr
      ⟨levels, beside, holds, ?_⟩
    simp only
    omega

/-- Beside no `allOf`, the linter comes as far as a document is read. -/
theorem withinReach_of_holds {token : Bytes} {levels : Nat} (holds : index.Holds token levels 0) :
    index.WithinReach token := by
  obtain ⟨s, hs, inMapping, inside⟩ := holds
  have shallow := Schema.levels_lt_of_holds (Index.reads_of_ofDocument read hs) inside
  exact ⟨levels, 0, ⟨s, hs, inMapping, inside⟩, Nat.le_of_lt_succ shallow⟩

theorem mem_unresolved_iff (token : Bytes) :
    token ∈ (Build.broken index (Build.allReferences index.named)).map Prod.snd ↔
      index.resolve? token = none ∧ ∃ levels beside, index.Holds token levels beside := by
  have held := exists_mention_iff_holds read token fun _ => True
  simp only [and_true] at held
  rw [← held, List.mem_map]
  constructor
  · rintro ⟨reference, member, rfl⟩
    rw [Build.broken, List.mem_filter, Build.mem_allReferences] at member
    obtain ⟨⟨s, hs, m, mention, rfl⟩, unresolved⟩ := member
    exact ⟨Option.isNone_iff_eq_none.mp unresolved, s, hs, m, mention, rfl⟩
  · rintro ⟨unresolved, s, hs, m, mention, rfl⟩
    refine ⟨(s.name, m.token), ?_, rfl⟩
    rw [Build.broken, List.mem_filter, Build.mem_allReferences]
    exact ⟨⟨s, hs, m, mention, rfl⟩, Option.isNone_iff_eq_none.mpr unresolved⟩

theorem mem_found_iff (token : Bytes) :
    token ∈ (foundIn index [] index.named).map Prod.snd ↔
      index.resolve? token = none ∧ index.WithinReach token := by
  rw [tokens_foundIn, mem_checkTokens, Index.WithinReach,
    ← exists_mention_iff_holds read token fun depth => depth ≤ maxDepth]
  simp only [inReach, List.mem_flatMap, List.mem_map, List.mem_filter, decide_eq_true_eq,
    List.not_mem_nil, not_false_eq_true, and_true]
  grind

end

/-- How the references that a run of the linter finds, each a token beside its owner, go with those
that the check before a build reports. -/
structure Accounts (index : Index) (config : LintConfig) (st : BuildState)
    (found unresolved : List (Bytes × Bytes)) : Prop where
  linted : (run index config).filter (fun d => d.rule = LintRule.missingRefTarget.text) =
    found.map (missing config)
  checked : Build.exec (Build.checkAll index) st =
    (if unresolved = [] then .ok () else .error .unresolvedReference,
      { st with diagnostics := st.diagnostics ++ unresolved.map Build.unresolvedReport })
  once : (found.map Prod.snd).Nodup
  reported : ∀ reference, reference ∈ found → reference ∈ unresolved
  unresolved_iff : ∀ token, token ∈ unresolved.map Prod.snd ↔
    index.resolve? token = none ∧ ∃ levels beside, index.Holds token levels beside
  found_iff : ∀ token, token ∈ found.map Prod.snd ↔
    token ∈ unresolved.map Prod.snd ∧ index.WithinReach token

theorem Accounts.mentions_iff {config : LintConfig} {st : BuildState}
    {found unresolved : List (Bytes × Bytes)} (h : Accounts index config st found unresolved) :
    (run index config).mentions LintRule.missingRefTarget.text = true ↔ found ≠ [] := by
  have found_nil : found = [] ↔ (run index config).filter
      (fun d => d.rule = LintRule.missingRefTarget.text) = [] := by
    rw [h.linted, List.map_eq_nil_iff]
  rw [Ne, found_nil, List.filter_eq_nil_iff, Diagnostics.mentions, List.any_eq_true]
  simp

theorem Accounts.fails_iff {config : LintConfig} {st : BuildState}
    {found unresolved : List (Bytes × Bytes)} (h : Accounts index config st found unresolved) :
    (Build.exec (Build.checkAll index) st).1 ≠ .ok () ↔ unresolved ≠ [] := by
  rw [h.checked]
  split
  · next none => simp [none]
  · next some => simp [some]

/-- If all that do not resolve are within reach, both have the same tokens. -/
theorem Accounts.agree {config : LintConfig} {st : BuildState}
    {found unresolved : List (Bytes × Bytes)} (h : Accounts index config st found unresolved)
    (all : ∀ token, token ∈ unresolved.map Prod.snd → index.WithinReach token) :
    ((run index config).mentions LintRule.missingRefTarget.text = true ↔
      (Build.exec (Build.checkAll index) st).1 ≠ .ok ()) ∧
    ∀ token, token ∈ found.map Prod.snd ↔ token ∈ unresolved.map Prod.snd := by
  have same : ∀ token, token ∈ found.map Prod.snd ↔ token ∈ unresolved.map Prod.snd :=
    fun token => (h.found_iff token).trans ⟨And.left, fun inside => ⟨inside, all token inside⟩⟩
  have empty : found.map Prod.snd = [] ↔ unresolved.map Prod.snd = [] := by
    simp only [List.eq_nil_iff_forall_not_mem, same]
  rw [List.map_eq_nil_iff, List.map_eq_nil_iff] at empty
  exact ⟨h.mentions_iff.trans ((not_congr empty).trans h.fails_iff.symm), same⟩

/-- The linter finds the tokens that the check reports, each once, as far as they are within its
reach. Only a token that stands beside an `allOf` is not. If all that do not resolve are within
reach, then the linter finds one exactly if the check fails, and both have the same tokens. -/
theorem run_missing {doc : Node} {index : Index} {config : LintConfig}
    (read : Index.ofDocument doc = .ok index) (on : config.missingRefTarget ≠ .off)
    (st : BuildState) :
    (∃ found unresolved, Accounts index config st found unresolved ∧
      ((∀ token, token ∈ unresolved.map Prod.snd → index.WithinReach token) →
        ((run index config).mentions LintRule.missingRefTarget.text = true ↔
          (Build.exec (Build.checkAll index) st).1 ≠ .ok ()) ∧
        ∀ token, token ∈ found.map Prod.snd ↔ token ∈ unresolved.map Prod.snd)) ∧
    ∀ token levels, index.Holds token levels 0 → index.WithinReach token := by
  have accounts : Accounts index config st (foundIn index [] index.named)
      (Build.broken index (Build.allReferences index.named)) := by
    refine ⟨missing_run on index, Build.exec_checkAll index st, ?_,
      fun _ => mem_broken_of_mem_foundIn, mem_unresolved_iff read, fun token => ?_⟩
    · rw [tokens_foundIn]
      exact nodup_checkTokens index [] _
    · rw [mem_found_iff read, mem_unresolved_iff read]
      refine ⟨fun ⟨broken, within⟩ => ⟨⟨broken, ?_⟩, within⟩,
        fun ⟨⟨broken, _⟩, within⟩ => ⟨broken, within⟩⟩
      obtain ⟨levels, beside, holds, -⟩ := within
      exact ⟨levels, beside, holds⟩
  exact ⟨⟨_, _, accounts, accounts.agree⟩, fun token levels => withinReach_of_holds read⟩

/-- A document where two properties refer to a schema that is not there. -/
def exGhosts : Node :=
  .obj [("swagger", .str "2.0"), ("definitions", .obj [("Order", .obj [("properties", .obj [
    ("by", .obj [("$ref", .str "Ghost")]), ("of", .obj [("$ref", .str "Ghost")])])])])]

def exGhost : Bytes × Bytes := ("Order", "Ghost")

theorem run_missing_exGhosts : ∃ index found unresolved,
    Index.ofDocument exGhosts = .ok index ∧ LintConfig.standard.missingRefTarget ≠ .off ∧
    found = [exGhost] ∧ unresolved = [exGhost, exGhost] ∧
    Accounts index .standard Build.start found unresolved ∧ index.WithinReach "Ghost" ∧
    ((run index .standard).mentions LintRule.missingRefTarget.text = true ↔
      (Build.exec (Build.checkAll index) Build.start).1 ≠ .ok ()) := by
  have facts : (Index.ofDocument exGhosts).toOption.map (fun index =>
      ((run index .standard).filter fun d => d.rule = LintRule.missingRefTarget.text,
        (Build.exec (Build.checkAll index) Build.start).2.diagnostics)) =
      some ([exGhost].map (missing .standard), [exGhost, exGhost].map Build.unresolvedReport) := by
    decide +kernel
  have on : LintConfig.standard.missingRefTarget ≠ .off := nofun
  cases read : Index.ofDocument exGhosts with
  | error e =>
    rw [read] at facts
    exact nomatch facts
  | ok index =>
    rw [read] at facts
    obtain ⟨linted, checked⟩ := Prod.mk.inj (Option.some.inj facts)
    obtain ⟨⟨found, unresolved, accounts, agree⟩, -⟩ := run_missing read on Build.start
    have once : found = [exGhost] :=
      List.map_injective_iff.mpr (missing_injective _) (accounts.linted.symm.trans linted)
    have twice : unresolved = [exGhost, exGhost] := by
      rw [accounts.checked] at checked
      exact List.map_injective_iff.mpr Build.unresolvedReport_injective checked
    have within : index.WithinReach "Ghost" :=
      ((accounts.found_iff "Ghost").mp (once ▸ List.mem_singleton_self _)).2
    refine ⟨index, found, unresolved, rfl, on, once, twice, accounts, within, (agree ?_).1⟩
    intro token member
    rw [twice] at member
    obtain rfl : token = "Ghost" := by simpa [exGhost] using member
    exact within

/-- Beside each of so many `allOf`s, one in the other, stands a property that leads to the next. -/
def exBeside : (levels : Nat) → Node
  | 0 => .obj [("$ref", .str "#/definitions/Gone")]
  | levels + 1 =>
    .obj [("allOf", .arr []), ("properties", .obj [("p", exBeside levels)])]

def exNested : Node :=
  .obj [("swagger", .str "2.0"), ("definitions", .obj [("A", exBeside 33)])]

/-- A token that the linter does not find can fail the check. -/
theorem not_found_of_broken : ¬ ∀ (doc : Node) (index : Index) (config : LintConfig)
    (st : BuildState), Index.ofDocument doc = .ok index → config.missingRefTarget ≠ .off →
    ((run index config).mentions LintRule.missingRefTarget.text = true ↔
      (Build.exec (Build.checkAll index) st).1 ≠ .ok ()) := by
  intro all
  have facts : (Index.ofDocument exNested).toOption.map (fun index =>
      ((run index .standard).mentions LintRule.missingRefTarget.text,
        (Build.exec (Build.checkAll index) Build.start).1.toOption)) = some (false, none) := by
    decide +kernel
  cases read : Index.ofDocument exNested with
  | error e =>
    rw [read] at facts
    exact nomatch facts
  | ok index =>
    rw [read] at facts
    obtain ⟨unfound, fails⟩ := Prod.mk.inj (Option.some.inj facts)
    have agree := all exNested index .standard Build.start read nofun
    rw [unfound] at agree
    refine nomatch agree.mpr fun passes => ?_
    rw [passes] at fails
    exact nomatch fails

end Lint

end HeaderForge
