import HeaderForge.Build.Composition
import HeaderForge.Proofs.Build.Alike
import HeaderForge.Proofs.Build.Types
/-!
# Walks through composed schemas in two indexes

A walk follows references from fragment to fragment and is bounded by the number of named schemas,
which differs between two indexes. It goes on at a name at most once, so what matters is how many of
the known names are left (`remaining`): as long as either bound exceeds that, the walks do the same.
-/

namespace HeaderForge

namespace Build

open Index (Inside Twins)

/-! ## Names that are left -/

/-- How many of the known names a walk has not gone on at. -/
def remaining (known seen : List Bytes) : Nat := (known.filter fun name => name ∉ seen).length

theorem remaining_le_length (known seen : List Bytes) : remaining known seen ≤ known.length :=
  List.length_filter_le _ _

theorem remaining_mono {known seen seen' : List Bytes} (more : seen ⊆ seen') :
    remaining known seen' ≤ remaining known seen := by
  refine (List.monotone_filter_right known fun name h => ?_).length_le
  have outside : name ∉ seen' := by simpa using h
  exact decide_eq_true fun inside => outside (more inside)

/-- Going on at a known name leaves one name less. -/
theorem remaining_cons_lt {known seen : List Bytes} {name : Bytes} (member : name ∈ known)
    (new : name ∉ seen) : remaining known (name :: seen) < remaining known seen := by
  have split : (known.filter fun other => other ∉ name :: seen) =
      (known.filter fun other => other ∉ seen).filter fun other => other ≠ name := by
    rw [List.filter_filter]
    refine List.filter_congr fun other _ => ?_
    simp [not_or]
  unfold remaining
  rw [split, List.length_filter_lt_length_iff_exists]
  exact ⟨name, List.mem_filter.mpr ⟨member, by simpa using new⟩, by simp⟩

section

variable {i j : Index} {known : List Bytes} (twins : Twins i j known) {D : Dependency → Prop}
  {A : Bytes → Prop} {owner : Bytes}

include twins in
/-- The bounds that walks start with exceed what is left of the known names. -/
theorem remaining_lt_bounds (seen : List Bytes) :
    remaining known seen < i.named.length + 1 ∧ remaining known seen < j.named.length + 1 :=
  have size := remaining_le_length known seen
  ⟨Nat.lt_succ_of_le (Nat.le_trans size twins.left),
    Nat.lt_succ_of_le (Nat.le_trans size twins.right)⟩

/-- Walks that do the same with one more level, if they do so at all names below, do the same with
all bounds that exceed what is left. -/
theorem alike_of_bounds {σ β : Type} {P : σ → β → Prop} (left : σ → Nat)
    (walk walk' : Nat → Schema → σ → Build β)
    (step : ∀ n bound bound' s st,
      (∀ (target : NamedSchema) st', target.name ∈ known → Inside i j known target.schema →
        left st' < n →
        Alike D A (P st') (walk bound target.schema st') (walk' bound' target.schema st')) →
      Inside i j known s → left st ≤ n →
      Alike D A (P st) (walk (bound + 1) s st) (walk' (bound' + 1) s st))
    {bound bound' : Nat} {s : Schema} {st : σ} (inside : Inside i j known s)
    (fits : left st < bound) (fits' : left st < bound') :
    Alike D A (P st) (walk bound s st) (walk' bound' s st) := by
  -- Both bounds go down together, and what is left is less than either of them.
  induction bound generalizing bound' s st with
  | zero => exact absurd fits (Nat.not_lt_zero _)
  | succ bound ih =>
    cases bound' with
    | zero => exact absurd fits' (Nat.not_lt_zero _)
    | succ bound' =>
      refine step (min bound bound') bound bound' s st ?_ inside (by omega)
      intro target st' _ inside fits
      exact ih inside (by omega) (by omega)

/-! ## Flattening -/

section

variable {read read' : Fragment → Build (List Field)}
  (reads : ∀ fragment : Fragment, (∀ p, p ∈ fragment.properties → Inside i j known p.2) →
    Alike D A (fun _ => True) (read fragment) (read' fragment))
include reads

theorem alike_contributeFragment {expand expand' : NamedSchema → Flattening → Build Flattening}
    (fragment : Fragment) (inside : ∀ p, p ∈ fragment.properties → Inside i j known p.2)
    (st : Flattening) :
    Alike D A (fun st' => st.contributed ⊆ st'.contributed)
      (contributeFragment ⟨i, owner, read, expand⟩ fragment st)
      (contributeFragment ⟨j, owner, read', expand'⟩ fragment st) := by
  unfold contributeFragment
  refine (reads fragment inside).bind fun fields _ => ?_
  exact (Alike.detail _ _ _).bind fun _ _ => Alike.pure (List.Subset.refl _)

omit reads in
theorem alike_contributeNothing {expand expand' : NamedSchema → Flattening → Build Flattening}
    (s : Schema) (st : Flattening) :
    Alike D A (fun st' => st.contributed ⊆ st'.contributed)
      (contributeNothing ⟨i, owner, read, expand⟩ s st)
      (contributeNothing ⟨j, owner, read', expand'⟩ s st) := by
  unfold contributeNothing
  exact (Alike.warning _ _ _ _).bind fun _ _ => Alike.pure (List.Subset.refl _)

section

variable {expand expand' : NamedSchema → Flattening → Build Flattening} {n : Nat}
  (expands : ∀ target st, target.name ∈ known → Inside i j known target.schema →
    remaining known st.contributed < n →
    Alike D A (fun st' => st.contributed ⊆ st'.contributed) (expand target st) (expand' target st))
include expands

omit reads in
theorem alike_contributeNamed {target : NamedSchema} (member : target.name ∈ known)
    (inside : Inside i j known target.schema) {st : Flattening}
    (fits : remaining known st.contributed ≤ n) :
    Alike D A (fun st' => st.contributed ⊆ st'.contributed)
      (contributeNamed ⟨i, owner, read, expand⟩ target st)
      (contributeNamed ⟨j, owner, read', expand'⟩ target st) := by
  unfold contributeNamed
  refine Alike.visiting target.name fun entered => ?_
  cases entered with
  | false =>
    refine (Alike.detail _ _ _).bind fun _ _ => Alike.pure ?_
    unfold noteReused
    split <;> exact List.Subset.refl _
  | true =>
    simp only [Bool.not_true, Bool.false_eq_true, if_false]
    split
    · exact (Alike.detail _ _ _).bind fun _ _ => Alike.pure (List.Subset.refl _)
    · next new =>
      refine (Alike.detail _ _ _).bind fun _ _ => ?_
      -- The walk goes on at the target, which leaves one name less to go on at.
      have less : remaining known (noteExpanded target.name st).contributed < n :=
        Nat.lt_of_lt_of_le (remaining_cons_lt member new) fits
      exact (expands target (noteExpanded target.name st) member inside less).weaken
        fun st' grown name h => grown (List.mem_cons_of_mem _ h)

include twins in
theorem alike_contribute (s : Schema) (st : Flattening) (inside : Inside i j known s)
    (fits : remaining known st.contributed ≤ n) :
    Alike D A (fun st' => st.contributed ⊆ st'.contributed)
      (contribute ⟨i, owner, read, expand⟩ s st) (contribute ⟨j, owner, read', expand'⟩ s st) := by
  -- The induction is on the recursion of `contribute`, whose second motive is about members.
  refine contribute.induct
    (fun s st => Inside i j known s → remaining known st.contributed ≤ n →
      Alike D A (fun st' => st.contributed ⊆ st'.contributed)
        (contribute ⟨i, owner, read, expand⟩ s st) (contribute ⟨j, owner, read', expand'⟩ s st))
    (fun members st => (∀ s, s ∈ members → Inside i j known s) →
      remaining known st.contributed ≤ n →
      Alike D A (fun st' => st.contributed ⊆ st'.contributed)
        (contributeAll ⟨i, owner, read, expand⟩ members st)
        (contributeAll ⟨j, owner, read', expand'⟩ members st))
    ?reference ?allOf ?object ?typed ?untyped ?array ?enumeration ?union ?none ?more s st inside fits
  case reference =>
    intro info token st inside fits
    rw [contribute, contribute]
    exact (alike_resolve twins inside owner).bind fun target found =>
      alike_contributeNamed expands found.1 found.2 fits
  case allOf =>
    intro info members st ih inside fits
    rw [contribute, contribute]
    exact ih (fun s hs => inside.member hs) fits
  case object =>
    intro info properties required extra st inside fits
    rw [contribute, contribute]
    exact alike_contributeFragment reads ⟨info, properties, required, extra⟩
      (fun p hp => inside.property hp) st
  case typed =>
    intro info st typed inside fits
    rw [contribute, contribute, if_pos typed, if_pos typed]
    exact alike_contributeNothing _ st
  case untyped =>
    intro info st untyped inside fits
    rw [contribute, contribute, if_neg untyped, if_neg untyped]
    exact Alike.pure (List.Subset.refl _)
  case array | enumeration =>
    intros
    rw [contribute, contribute]
    exact alike_contributeNothing _ _
  case union =>
    intros
    rw [contribute, contribute]
    exact alike_contributeNothing _ _
  case none =>
    intro st inside fits
    rw [contributeAll, contributeAll]
    exact Alike.pure (List.Subset.refl _)
  case more =>
    intro s rest st ih others inside fits
    rw [contributeAll, contributeAll]
    refine (ih (inside s List.mem_cons_self) fits).bind fun st' grown => ?_
    refine (others st' (fun t ht => inside t (List.mem_cons_of_mem _ ht))
      (Nat.le_trans (remaining_mono grown) fits)).weaken fun st'' grown' => ?_
    exact List.Subset.trans grown grown'

end

include twins

theorem alike_flattenWithin {bound bound' : Nat} {s : Schema} {st : Flattening}
    (inside : Inside i j known s) (left : remaining known st.contributed < bound)
    (right : remaining known st.contributed < bound') :
    Alike D A (fun st' => st.contributed ⊆ st'.contributed)
      (flattenWithin i owner read bound s st) (flattenWithin j owner read' bound' s st) := by
  refine alike_of_bounds (P := fun st st' : Flattening => st.contributed ⊆ st'.contributed)
    (fun st => remaining known st.contributed) (flattenWithin i owner read)
    (flattenWithin j owner read') ?_ inside left right
  intro n bound bound' s st expands inside fits
  rw [flattenWithin, flattenWithin]
  exact alike_contribute twins reads expands s st inside fits

theorem alike_flatten {s : Schema} (inside : Inside i j known s) :
    Alike D A (fun _ => True) (flatten i s owner read) (flatten j s owner read') := by
  obtain ⟨left, right⟩ := remaining_lt_bounds twins []
  have walk : Alike D A (fun _ => True)
      (flattenWithin i owner read (i.named.length + 1) s ⟨[], [], []⟩)
      (flattenWithin j owner read' (j.named.length + 1) s ⟨[], [], []⟩) :=
    (alike_flattenWithin twins reads inside left right).trivial
  unfold flatten
  cases s with
  | allOf info members => exact (Alike.detail _ _ _).bind fun _ _ => walk
  | primitive | enumeration | reference | array | object | union => exact walk

end

/-! ## Single properties -/

/-- A search has seen no less than before, and `Q` holds of what it found. -/
def Found {α : Type} (Q : α → Prop) (seen : List Bytes) (found : α × List Bytes) : Prop :=
  seen ⊆ found.2 ∧ Q found.1

/-- A property that was found is inside. -/
def InsideIfAny (i j : Index) (known : List Bytes) (property : Option Schema) : Prop :=
  ∀ s, property = some s → Inside i j known s

theorem insideIfAny_none {i j : Index} {known : List Bytes} : InsideIfAny i j known none :=
  fun _ h => nomatch h

section

variable {α : Type} {Q : α → Prop}
  {enter enter' : NamedSchema → List Bytes → Build (α × List Bytes)} {n : Nat}
  (enters : ∀ target seen, target.name ∈ known → Inside i j known target.schema →
    remaining known seen < n →
    Alike D A (Found Q seen) (enter target seen) (enter' target seen))
include enters

theorem alike_searchNamed {nothing : α} (holds : Q nothing) {target : NamedSchema}
    (member : target.name ∈ known) (inside : Inside i j known target.schema) {seen : List Bytes}
    (fits : remaining known seen ≤ n) :
    Alike D A (Found Q seen)
      (searchNamed ⟨i, owner, enter, nothing⟩ target seen)
      (searchNamed ⟨j, owner, enter', nothing⟩ target seen) := by
  unfold searchNamed
  split
  · exact Alike.pure ⟨List.Subset.refl _, holds⟩
  · next new =>
    have less : remaining known (target.name :: seen) < n :=
      Nat.lt_of_lt_of_le (remaining_cons_lt member new) fits
    exact (enters target _ member inside less).weaken
      fun found kept => ⟨fun name h => kept.1 (List.mem_cons_of_mem _ h), kept.2⟩

end

section

variable {enter enter' : NamedSchema → List Bytes → Build (Option Schema × List Bytes)} {n : Nat}
  (enters : ∀ target seen, target.name ∈ known → Inside i j known target.schema →
    remaining known seen < n →
    Alike D A (Found (InsideIfAny i j known) seen) (enter target seen) (enter' target seen))
include twins enters

theorem alike_findIn (key : Bytes) (s : Schema) (seen : List Bytes) (inside : Inside i j known s)
    (fits : remaining known seen ≤ n) :
    Alike D A (Found (InsideIfAny i j known) seen) (findIn ⟨i, owner, enter, none⟩ key s seen)
      (findIn ⟨j, owner, enter', none⟩ key s seen) := by
  -- As for `contribute`, the second motive is about members, here from the last one.
  refine findIn.induct
    (fun s seen => Inside i j known s → remaining known seen ≤ n →
      Alike D A (Found (InsideIfAny i j known) seen) (findIn ⟨i, owner, enter, none⟩ key s seen)
        (findIn ⟨j, owner, enter', none⟩ key s seen))
    (fun members seen => (∀ s, s ∈ members → Inside i j known s) → remaining known seen ≤ n →
      Alike D A (Found (InsideIfAny i j known) seen)
        (findInLast ⟨i, owner, enter, none⟩ key members seen)
        (findInLast ⟨j, owner, enter', none⟩ key members seen))
    ?reference ?object ?allOf ?other ?none ?more s seen inside fits
  case reference =>
    intro info token seen inside fits
    rw [findIn, findIn]
    exact (alike_resolve twins inside owner).bind fun target found =>
      alike_searchNamed enters insideIfAny_none found.1 found.2 fits
  case object =>
    intro info properties required extra seen inside fits
    rw [findIn, findIn]
    exact Alike.pure ⟨List.Subset.refl _, fun s found => inside.lookup found⟩
  case allOf =>
    intro info members seen ih inside fits
    rw [findIn, findIn]
    exact ih (fun s hs => inside.member hs) fits
  case other =>
    intro s seen noReference noObject noAllOf inside fits
    rw [findIn, findIn]
    · exact Alike.pure ⟨List.Subset.refl _, insideIfAny_none⟩
    all_goals assumption
  case none =>
    intro seen inside fits
    rw [findInLast, findInLast]
    exact Alike.pure ⟨List.Subset.refl _, insideIfAny_none⟩
  case more =>
    intro s rest seen others ih inside fits
    rw [findInLast, findInLast]
    refine (others (fun t ht => inside t (List.mem_cons_of_mem _ ht)) fits).bind
      fun found grown => ?_
    obtain ⟨property, seen'⟩ := found
    cases property with
    | some property => exact Alike.pure grown
    | none =>
      exact (ih seen' (inside s List.mem_cons_self)
        (Nat.le_trans (remaining_mono grown.1) fits)).weaken
          fun found grown' => ⟨List.Subset.trans grown.1 grown'.1, grown'.2⟩

end

section

variable {enter enter' : NamedSchema → List Bytes → Build (List Bytes × List Bytes)} {n : Nat}
  (enters : ∀ target seen, target.name ∈ known → Inside i j known target.schema →
    remaining known seen < n →
    Alike D A (Found (fun _ => True) seen) (enter target seen) (enter' target seen))
include twins enters

theorem alike_keysIn (s : Schema) (seen : List Bytes) (inside : Inside i j known s)
    (fits : remaining known seen ≤ n) :
    Alike D A (Found (fun _ => True) seen) (keysIn ⟨i, owner, enter, []⟩ s seen)
      (keysIn ⟨j, owner, enter', []⟩ s seen) := by
  -- Unlike a search for one key, this one goes through all members in order.
  refine keysIn.induct
    (fun s seen => Inside i j known s → remaining known seen ≤ n →
      Alike D A (Found (fun _ => True) seen) (keysIn ⟨i, owner, enter, []⟩ s seen)
        (keysIn ⟨j, owner, enter', []⟩ s seen))
    (fun members seen => (∀ s, s ∈ members → Inside i j known s) → remaining known seen ≤ n →
      Alike D A (Found (fun _ => True) seen) (keysInAll ⟨i, owner, enter, []⟩ members seen)
        (keysInAll ⟨j, owner, enter', []⟩ members seen))
    ?reference ?object ?allOf ?other ?none ?more s seen inside fits
  case reference =>
    intro info token seen inside fits
    rw [keysIn, keysIn]
    exact (alike_resolve twins inside owner).bind fun target found =>
      alike_searchNamed enters trivial found.1 found.2 fits
  case object =>
    intro info properties required extra seen inside fits
    rw [keysIn, keysIn]
    exact Alike.pure ⟨List.Subset.refl _, trivial⟩
  case allOf =>
    intro info members seen ih inside fits
    rw [keysIn, keysIn]
    exact ih (fun s hs => inside.member hs) fits
  case other =>
    intro s seen noReference noObject noAllOf inside fits
    rw [keysIn, keysIn]
    · exact Alike.pure ⟨List.Subset.refl _, trivial⟩
    all_goals assumption
  case none =>
    intro seen inside fits
    rw [keysInAll, keysInAll]
    exact Alike.pure ⟨List.Subset.refl _, trivial⟩
  case more =>
    intro s rest seen ih others inside fits
    rw [keysInAll, keysInAll]
    refine (ih (inside s List.mem_cons_self) fits).bind fun first grown => ?_
    refine (others first.2 (fun t ht => inside t (List.mem_cons_of_mem _ ht))
      (Nat.le_trans (remaining_mono grown.1) fits)).bind fun later grown' => ?_
    exact Alike.pure ⟨List.Subset.trans grown.1 grown'.1, trivial⟩

end

include twins

theorem alike_findWithin {key : Bytes} {bound bound' : Nat} {s : Schema} {seen : List Bytes}
    (inside : Inside i j known s) (left : remaining known seen < bound)
    (right : remaining known seen < bound') :
    Alike D A (Found (InsideIfAny i j known) seen) (findWithin i owner key bound s seen)
      (findWithin j owner key bound' s seen) := by
  refine alike_of_bounds (P := Found (InsideIfAny i j known)) (remaining known)
    (findWithin i owner key) (findWithin j owner key) ?_ inside left right
  intro n bound bound' s seen enters inside fits
  rw [findWithin, findWithin]
  exact alike_findIn twins enters key s seen inside fits

theorem alike_keysWithin {bound bound' : Nat} {s : Schema} {seen : List Bytes}
    (inside : Inside i j known s) (left : remaining known seen < bound)
    (right : remaining known seen < bound') :
    Alike D A (Found (fun _ => True) seen) (keysWithin i owner bound s seen)
      (keysWithin j owner bound' s seen) := by
  refine alike_of_bounds (P := Found fun _ => True) (remaining known) (keysWithin i owner)
    (keysWithin j owner) ?_ inside left right
  intro n bound bound' s seen enters inside fits
  rw [keysWithin, keysWithin]
  exact alike_keysIn twins enters s seen inside fits

theorem alike_findProperty {s : NamedSchema} (inside : Inside i j known s.schema)
    (key owner : Bytes) :
    Alike D A (InsideIfAny i j known)
      (findProperty i s key owner) (findProperty j s key owner) := by
  unfold findProperty
  obtain ⟨left, right⟩ := remaining_lt_bounds twins [s.name]
  exact (alike_findWithin twins inside left right).bind fun _ found => Alike.pure found.2

theorem alike_propertyKeys {s : NamedSchema} (inside : Inside i j known s.schema)
    (owner : Bytes) :
    Alike D A (fun _ => True) (propertyKeys i s owner) (propertyKeys j s owner) := by
  unfold propertyKeys
  obtain ⟨left, right⟩ := remaining_lt_bounds twins [s.name]
  exact (alike_keysWithin twins inside left right).bind fun _ _ => Alike.pure trivial

end

end Build

end HeaderForge
