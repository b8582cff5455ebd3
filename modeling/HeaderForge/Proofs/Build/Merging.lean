import HeaderForge.Proofs.Build.Shapes
import HeaderForge.Proofs.Class.Registrations
import Mathlib.Data.List.Forall2
import Mathlib.Data.List.Induction
/-!
# What merging makes of the fields of all fragments

Merging looks for a key among the fields that are there while it adds to them, so fields that come
before decide where a later one goes. For each key apart, merging only overrides one field by the
next. Overriding is associative, which is why it does not matter whether the later fragments were
merged among themselves before.

1. `overriddenBy_assoc`, and `combine_append` for all fields of one key.
2. `keys_merge` and `find?_merge`: the keys after merging, and the field that each of them has. Both
   together say all (`ext_of_keys`).
3. `gathers_combine`: what the fields of one key make together, attribute by attribute.
4. `foldl_merge_closed` is the closed form, and that fragments can be merged in groups.
-/

namespace HeaderForge

namespace Field

/-! ## Overriding -/

theorem laterText_assoc (s t u : Bytes) :
    laterText (laterText s t) u = laterText s (laterText t u) := by
  unfold laterText
  cases u with
  | nil => rfl
  | cons b rest => rfl

theorem overriddenBy_assoc (f g h : Field) :
    (f.overriddenBy g).overriddenBy h = f.overriddenBy (g.overriddenBy h) := by
  simp only [overriddenBy, laterText_assoc, Bool.or_assoc]

instance : Std.Associative overriddenBy := ⟨overriddenBy_assoc⟩

/-- The field that fields of one key make together, each overridden by the next. -/
def combine : List Field → Option Field
  | [] => none
  | first :: rest => some (rest.foldl overriddenBy first)

theorem combine_append (fields later : List Field) :
    combine (fields ++ later) = (combine fields).merge overriddenBy (combine later) := by
  cases fields with
  | nil => simp [combine]
  | cons f fields =>
    cases later with
    | nil => simp [combine]
    | cons g later =>
      simp only [combine, List.cons_append, List.foldl_append, List.foldl_cons, List.foldl_assoc,
        Option.merge_some_some]

/-! ## Fields by key -/

/-- The fields that have a key. -/
def withKey (key : Bytes) (fields : List Field) : List Field := fields.filter fun f => f.key = key

/-- The first field that has a key. -/
def find? (key : Bytes) (fields : List Field) : Option Field := fields.find? fun f => f.key = key

theorem find?_cons (f : Field) (fields : List Field) (key : Bytes) :
    find? key (f :: fields) = if f.key = key then some f else find? key fields := by
  by_cases own : f.key = key <;> simp [find?, own]

theorem find?_mergeOne (f : Field) (fields : List Field) (key : Bytes) :
    find? key (mergeOne f fields) =
      (find? key fields).merge overriddenBy (if f.key = key then some f else none) := by
  induction fields with
  | nil => simp [mergeOne, find?]
  | cons first rest ih =>
    rw [mergeOne, find?_cons]
    split
    · next same =>
      rw [find?_cons, overriddenBy, same]
      split <;> simp [overriddenBy, same]
    · next other =>
      rw [find?_cons, ih]
      split
      · next own => rw [if_neg fun same => other (own.trans same.symm), Option.merge_none_right]
      · rfl

/-- A key has what it had, overridden by what all later fields of the key make together. -/
theorem find?_merge (fields later : List Field) (key : Bytes) :
    find? key (merge fields later) =
      (find? key fields).merge overriddenBy (combine (withKey key later)) := by
  unfold merge
  induction later generalizing fields with
  | nil => simp [withKey, combine]
  | cons f rest ih =>
    rw [List.foldl_cons, ih, find?_mergeOne,
      @Std.Associative.assoc _ (Option.merge overriddenBy)]
    congr 1
    unfold withKey
    split
    · next own =>
      rw [List.filter_cons_of_pos (by simpa using own)]
      exact (combine_append [f] _).symm
    · next other => rw [List.filter_cons_of_neg (by simpa using other), Option.merge_none_left]

theorem find?_merge_nil (fields : List Field) (key : Bytes) :
    find? key (merge [] fields) = combine (withKey key fields) :=
  (find?_merge [] fields key).trans Option.merge_none_left

/-! ## Keys in order of first occurrence -/

theorem eraseDups_of_nodup {keys : List Bytes} (distinct : keys.Nodup) : keys.eraseDups = keys := by
  induction keys using List.reverseRecOn with
  | nil => rfl
  | append_singleton keys key ih =>
    obtain ⟨before, -, apart⟩ := List.nodup_append.mp distinct
    rw [Registry.eraseDups_append_singleton, ih before,
      if_neg fun again => apart key again key (List.mem_singleton_self key) rfl]

theorem eraseDups_append_eraseDups (keys later : List Bytes) :
    (keys ++ later.eraseDups).eraseDups = (keys ++ later).eraseDups := by
  induction later using List.reverseRecOn with
  | nil => rfl
  | append_singleton later key ih =>
    rw [Registry.eraseDups_append_singleton, ← List.append_assoc,
      Registry.eraseDups_append_singleton]
    split
    · next again =>
      have there : key ∈ (keys ++ later).eraseDups :=
        List.mem_eraseDups.mpr (List.mem_append_right _ (List.mem_eraseDups.mp again))
      rw [ih, if_pos there]
    · rw [← List.append_assoc, Registry.eraseDups_append_singleton, ih]

/-- New keys come last, in the order in which they come first. -/
theorem keys_merge {fields : List Field} (distinct : (fields.map key).Nodup) (later : List Field) :
    (merge fields later).map key = (fields.map key ++ later.map key).eraseDups := by
  unfold merge
  induction later using List.reverseRecOn with
  | nil => rw [List.map_nil, List.append_nil, eraseDups_of_nodup distinct, List.foldl_nil]
  | append_singleton later f ih =>
    rw [List.foldl_append, List.foldl_cons, List.foldl_nil, Build.keys_mergeOne, ih,
      List.map_append, List.map_singleton, ← List.append_assoc,
      Registry.eraseDups_append_singleton]

theorem nodup_keys_merge {fields : List Field} (distinct : (fields.map key).Nodup)
    (later : List Field) : ((merge fields later).map key).Nodup :=
  keys_merge distinct later ▸ (Bytes.sublist_nodup_eraseDups _).2

theorem keys_merge_nil (fields : List Field) :
    (merge [] fields).map key = (fields.map key).eraseDups :=
  @keys_merge [] List.nodup_nil fields

theorem nodup_keys_merge_nil (fields : List Field) : ((merge [] fields).map key).Nodup :=
  @nodup_keys_merge [] List.nodup_nil fields

theorem find?_of_mem {fields : List Field} (distinct : (fields.map key).Nodup) {f : Field}
    (member : f ∈ fields) : find? f.key fields = some f := by
  induction fields with
  | nil => exact nomatch member
  | cons first rest ih =>
    rw [List.map_cons, List.nodup_cons] at distinct
    rw [find?_cons]
    rcases List.mem_cons.mp member with rfl | later
    · exact if_pos rfl
    · have other : first.key ≠ f.key := fun same =>
        distinct.1 (same ▸ List.mem_map_of_mem later)
      rw [if_neg other, ih distinct.2 later]

/-- Fields with distinct keys are said by their keys and what each key has. -/
theorem ext_of_keys {fields others : List Field} (distinct : (fields.map key).Nodup)
    (keys : fields.map key = others.map key)
    (found : ∀ key, find? key fields = find? key others) : fields = others := by
  refine List.ext_getElem (by simpa using congrArg List.length keys) fun n here there => ?_
  have same : fields[n].key = others[n].key := by
    have mapped : (fields.map key)[n]? = (others.map key)[n]? := by rw [keys]
    simpa [List.getElem?_eq_getElem here, List.getElem?_eq_getElem there] using mapped
  have first := find?_of_mem distinct (List.getElem_mem here)
  have second := find?_of_mem (keys ▸ distinct) (List.getElem_mem there)
  rw [found, same, second] at first
  exact (Option.some.inj first).symm

theorem combine_withKey_of_nodup {fields : List Field} (distinct : (fields.map key).Nodup)
    (key : Bytes) : combine (withKey key fields) = find? key fields := by
  induction fields with
  | nil => rfl
  | cons first rest ih =>
    rw [List.map_cons, List.nodup_cons] at distinct
    rw [find?_cons, withKey]
    split
    · next own =>
      have alone : withKey key rest = [] := by
        refine List.filter_eq_nil_iff.mpr fun f later same => distinct.1 ?_
        exact List.mem_map.mpr ⟨f, later, (of_decide_eq_true same).trans own.symm⟩
      rw [List.filter_cons_of_pos (by simpa using own)]
      exact congrArg (fun others => combine (first :: others)) alone
    · next other =>
      rw [List.filter_cons_of_neg (by simpa using other)]
      exact ih distinct.2

/-- Fields may be merged among themselves before they are merged into others. -/
theorem merge_merge {fields : List Field} (distinct : (fields.map key).Nodup) (later : List Field) :
    merge fields (merge [] later) = merge fields later := by
  refine ext_of_keys (nodup_keys_merge distinct _) ?_ fun key => ?_
  · rw [keys_merge distinct, keys_merge distinct, keys_merge_nil, eraseDups_append_eraseDups]
  · rw [find?_merge, find?_merge, combine_withKey_of_nodup (nodup_keys_merge_nil later),
      find?_merge_nil]

/-! ## The attributes of a combined field -/

/-- The last of some texts that is not empty. -/
def lastText (texts : List Bytes) : Bytes := ((texts.filter (!·.isEmpty)).getLast?).getD []

theorem lastText_append_singleton (texts : List Bytes) (text : Bytes) :
    lastText (texts ++ [text]) = laterText (lastText texts) text := by
  unfold lastText laterText
  cases text with
  | nil => simp
  | cons b rest => simp

/-- A field that is made of all those of its key: its name is that of the first, its type and flags
are those of the last, it is required if any of them is, and each of its texts is the last one that
is not empty. -/
structure Gathers (occurrences : List Field) (f : Field) : Prop where
  key : occurrences.head?.map Field.key = some f.key
  name : occurrences.head?.map Field.name = some f.name
  type : occurrences.getLast?.map Field.type = some f.type
  nullable : occurrences.getLast?.map Field.nullable = some f.nullable
  deprecated : occurrences.getLast?.map Field.deprecated = some f.deprecated
  required : f.required = occurrences.any Field.required
  description : f.description = lastText (occurrences.map Field.description)
  sample : f.sample = lastText (occurrences.map Field.sample)

theorem gathers_single (f : Field) : Gathers [f] f := by
  have lone : ∀ text : Bytes, text = lastText [text] := by
    intro text
    cases text <;> rfl
  exact ⟨rfl, rfl, rfl, rfl, rfl, by simp, lone _, lone _⟩

theorem Gathers.override {occurrences : List Field} {f : Field} (gathers : Gathers occurrences f)
    (later : Field) : Gathers (occurrences ++ [later]) (f.overriddenBy later) := by
  have begun : occurrences ≠ [] := by
    rintro rfl
    exact nomatch gathers.key
  refine ⟨?_, ?_, by simp [overriddenBy], by simp [overriddenBy], by simp [overriddenBy],
    ?_, ?_, ?_⟩
  · rw [List.head?_append_of_ne_nil _ begun, gathers.key, overriddenBy]
  · rw [List.head?_append_of_ne_nil _ begun, gathers.name, overriddenBy]
  · rw [List.any_append, ← gathers.required]
    simp [overriddenBy]
  · rw [List.map_append, List.map_singleton, lastText_append_singleton, ← gathers.description]
    rfl
  · rw [List.map_append, List.map_singleton, lastText_append_singleton, ← gathers.sample]
    rfl

theorem gathers_combine {occurrences : List Field} {f : Field}
    (combined : combine occurrences = some f) : Gathers occurrences f := by
  cases occurrences with
  | nil => exact nomatch combined
  | cons first rest =>
    obtain rfl := Option.some.inj combined
    induction rest using List.reverseRecOn with
    | nil => exact gathers_single first
    | append_singleton rest later ih =>
      rw [List.foldl_append]
      exact (ih rfl).override later

/-! ## The closed form -/

/-- Fragments that are merged one after the other give one field for each key, in the order in which
the keys come first, made of all fields that have the key. It does not matter where the fragments
are parted: what the later ones give by themselves may be merged into what the earlier ones give. -/
theorem foldl_merge_closed (fragments : List (List Field)) :
    List.Forall₂ (fun key f => f.key = key ∧ Gathers (withKey key fragments.flatten) f)
        (fragments.flatten.map key).eraseDups (fragments.foldl merge []) ∧
      ∀ n, merge ((fragments.take n).foldl merge []) ((fragments.drop n).foldl merge []) =
        fragments.foldl merge [] := by
  have flat (lists : List (List Field)) : lists.foldl merge [] = merge [] lists.flatten :=
    List.foldl_flatten.symm
  constructor
  · rw [flat, ← keys_merge_nil, List.forall₂_map_left_iff, List.forall₂_same]
    intro f member
    have found := find?_of_mem (nodup_keys_merge_nil _) member
    rw [find?_merge_nil] at found
    exact ⟨rfl, gathers_combine found⟩
  · intro n
    rw [flat, flat, flat, merge_merge (nodup_keys_merge_nil _)]
    unfold merge
    rw [← List.foldl_append, ← List.flatten_append, List.take_append_drop]

end Field

end HeaderForge
