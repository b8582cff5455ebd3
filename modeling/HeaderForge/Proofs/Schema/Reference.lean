import HeaderForge.Schema.Reference
import Mathlib.Data.List.Perm.Subperm
/-!
# Reachability

`Index.reachable` and `Index.search` count steps down from the number of names. This file shows that
the bound is always enough, so the list is exactly the set of names that a chain of references leads
to, and the search meets exactly these.

1. `gather_invariant` and `gather_closed` say that what is gathered holds nothing that no chain
   leads to, and misses nothing.
2. `Index.Leads` is a chain of references, and `Index.mem_reachable_iff` identifies the two.
3. `Index.Searches` is the search without a bound. Each of its steps keeps `Index.Searching`, and by
   `Index.Searching.ends` it comes to its end.
4. `Index.reachesFrom_iff` and `Index.closesCycleFrom_iff` are what a search finds, whatever table
   earlier searches have left.
-/

namespace HeaderForge

namespace Index

/-! ## Gathering -/

theorem all_of_dropWhile_nil {p : Bytes → Bool} {pending : List Bytes}
    (h : pending.dropWhile p = []) : ∀ x, x ∈ pending → p x = true := by
  induction pending with
  | nil => exact fun x hx => nomatch hx
  | cons first others ih =>
    rw [List.dropWhile_cons] at h
    split at h
    · next dropped =>
      intro x hx
      rcases List.mem_cons.mp hx with rfl | hx
      · exact dropped
      · exact ih h x hx
    · exact nomatch h

theorem head_mem_of_dropWhile {p : Bytes → Bool} {pending rest : List Bytes} {name : Bytes}
    (h : pending.dropWhile p = name :: rest) : p name = false ∧ name ∈ pending ∧
      ∀ x, x ∈ pending → p x = true ∨ x = name ∨ x ∈ rest := by
  induction pending with
  | nil => exact nomatch h
  | cons first others ih =>
    rw [List.dropWhile_cons] at h
    split at h
    · next dropped =>
      obtain ⟨here, inside, all⟩ := ih h
      refine ⟨here, List.mem_cons_of_mem _ inside, fun x hx => ?_⟩
      rcases List.mem_cons.mp hx with rfl | hx
      · exact .inl dropped
      · exact all x hx
    · next kept =>
      cases h
      refine ⟨by simpa using kept, List.mem_cons_self, fun x hx => ?_⟩
      rcases List.mem_cons.mp hx with rfl | hx
      · exact .inr (.inl rfl)
      · exact .inr (.inr hx)

/-- What holds of the pending names and of everything that a name with it leads to holds of all
names that are gathered, and these are of the domain. -/
theorem gather_invariant {next : Bytes → List Bytes} {P : Bytes → Prop}
    (step : ∀ x y, P x → y ∈ next x → P y) {bound : Nat} {domain pending : List Bytes}
    (start : ∀ x, x ∈ pending → P x) :
    ∀ x, x ∈ gather next bound domain pending → x ∈ domain ∧ P x := by
  induction bound generalizing domain pending with
  | zero => exact fun x hx => nomatch hx
  | succ bound ih =>
    intro x hx
    rw [gather] at hx
    split at hx
    · exact nomatch hx
    · next name rest found =>
      obtain ⟨here, inside, -⟩ := head_mem_of_dropWhile found
      rcases List.mem_cons.mp hx with rfl | hx
      · exact ⟨by simpa using here, start _ inside⟩
      · have dropped : ∀ y, y ∈ rest → y ∈ pending := fun y hy =>
          (List.dropWhile_suffix _).subset (found ▸ List.mem_cons_of_mem _ hy)
        have following : ∀ y, y ∈ next name ++ rest → P y := fun y hy =>
          (List.mem_append.mp hy).elim (step name y (start _ inside)) fun h => start y (dropped y h)
        obtain ⟨left, holds⟩ := ih following x hx
        exact ⟨List.mem_of_mem_erase left, holds⟩

/-- With as many steps as the domain has names, the pending names of the domain are gathered, and
with a name all names of the domain that it leads to. -/
theorem gather_closed (next : Bytes → List Bytes) {bound : Nat} {domain : List Bytes}
    (enough : domain.length ≤ bound) (pending : List Bytes) :
    (∀ x, x ∈ pending → x ∈ domain → x ∈ gather next bound domain pending) ∧
      ∀ x, x ∈ gather next bound domain pending → ∀ y, y ∈ next x → y ∈ domain →
        y ∈ gather next bound domain pending := by
  induction bound generalizing domain pending with
  | zero =>
    have empty : domain = [] := List.length_eq_zero_iff.mp (Nat.le_zero.mp enough)
    subst empty
    exact ⟨fun x _ hx => (nomatch hx), fun x hx => (nomatch hx)⟩
  | succ bound ih =>
    rw [gather]
    split
    · next none =>
      have outside : ∀ x, x ∈ pending → x ∉ domain := by
        simpa using all_of_dropWhile_nil none
      exact ⟨fun x hx hd => absurd hd (outside x hx), fun x hx => (nomatch hx)⟩
    · next name rest found =>
      obtain ⟨here, -, split⟩ := head_mem_of_dropWhile found
      have inside : name ∈ domain := by simpa using here
      have shorter : (domain.erase name).length ≤ bound := by
        rw [List.length_erase_of_mem inside]
        omega
      obtain ⟨seeds, steps⟩ := ih shorter (next name ++ rest)
      -- A name of the domain is the one that leaves it, or is still of the smaller domain.
      have remains : ∀ y, y ∈ domain → y = name ∨ y ∈ domain.erase name := fun y hy =>
        (Decidable.em (y = name)).imp_right fun other => (List.mem_erase_of_ne other).mpr hy
      constructor
      · intro x hx hd
        rcases remains x hd with rfl | hd'
        · exact List.mem_cons_self
        · rcases split x hx with outside | rfl | hr
          · exact absurd hd (by simpa using outside)
          · exact List.mem_cons_self
          · exact List.mem_cons_of_mem _ (seeds x (List.mem_append_right _ hr) hd')
      · intro x hx y hy hd
        rcases remains y hd with rfl | hd'
        · exact List.mem_cons_self
        · refine List.mem_cons_of_mem _ ?_
          rcases List.mem_cons.mp hx with rfl | hx
          · exact seeds y (List.mem_append_left _ hy) hd'
          · exact steps x hx y hy hd'

/-! ## Chains of references -/

/-- A chain of one or more references from one name to another. -/
inductive Leads (index : Index) (source : Bytes) : Bytes → Prop
  | edge {target : Bytes} : target ∈ index.edges source → Leads index source target
  | step {middle target : Bytes} : Leads index source middle → target ∈ index.edges middle →
      Leads index source target

theorem name_of_find? {index : Index} {name : Bytes} {s : NamedSchema}
    (h : index.find? name = some s) : s.name = name := by
  simpa using List.find?_some h

theorem mem_names_of_find? {index : Index} {name : Bytes} {s : NamedSchema}
    (h : index.find? name = some s) : name ∈ index.names :=
  List.mem_map.mpr ⟨s, List.mem_of_find?_eq_some h, name_of_find? h⟩

theorem exists_find?_of_mem_names {index : Index} {name : Bytes} (h : name ∈ index.names) :
    ∃ s, index.find? name = some s := by
  obtain ⟨s, member, rfl⟩ := List.mem_map.mp h
  rw [← Option.isSome_iff_exists, find?, List.find?_isSome]
  exact ⟨s, member, by simp⟩

theorem find?_eq_none {index : Index} {name : Bytes} (h : name ∉ index.names) :
    index.find? name = none :=
  Option.eq_none_iff_forall_ne_some.mpr fun _ found => h (mem_names_of_find? found)

theorem find?_of_resolve? {index : Index} {token : Bytes} {s : NamedSchema}
    (h : index.resolve? token = some s) :
    referenceName? token = some s.name ∧ index.find? s.name = some s := by
  obtain ⟨name, designated, found⟩ := Option.bind_eq_some_iff.mp h
  rw [name_of_find? found]
  exact ⟨designated, found⟩

theorem mem_directReferences {index : Index} {s : Schema} {name : Bytes} :
    name ∈ index.directReferences s ↔ ∃ m, m ∈ s.mentions 0 ∧ m.inMapping = false ∧
      ∃ t, index.resolve? m.token = some t ∧ t.name = name := by
  simp [directReferences, List.mem_eraseDups, and_assoc]

theorem edges_subset_names {index : Index} {source target : Bytes}
    (h : target ∈ index.edges source) : target ∈ index.names := by
  unfold edges at h
  split at h
  · obtain ⟨m, -, -, t, resolved, rfl⟩ := mem_directReferences.mp h
    exact mem_names_of_find? (find?_of_resolve? resolved).2
  · exact nomatch h

/-- The reachable names are the ones that a chain of references leads to. -/
theorem mem_reachable_iff {index : Index} {source target : Bytes} :
    target ∈ index.reachable source ↔ index.Leads source target := by
  have closed := gather_closed index.edges (Nat.le_refl index.names.length) (index.edges source)
  -- The names that the source refers to are pending at the start, and every step adds an edge.
  constructor
  · intro h
    exact (gather_invariant (P := index.Leads source) (fun _ _ => .step) (fun _ => .edge) _ h).2
  · intro chain
    induction chain with
    | edge e => exact closed.1 _ e (edges_subset_names e)
    | step _ e ih => exact closed.2 _ ih _ e (edges_subset_names e)

/-! ## Searching -/

/-- A table has no other edges than the index. -/
def Knows (index : Index) (table : EdgeTable) : Prop :=
  ∀ name known, table.lookup name = some known → known = index.edges name

/-- How the search ends that goes on until a name is the target or none is left, as often as it
takes. -/
inductive Searches (index : Index) (target : Bytes) :
    EdgeTable → (seen pending : List Bytes) → Bool × EdgeTable → Prop
  | exhausted {table : EdgeTable} {seen : List Bytes} :
      Searches index target table seen [] (false, table)
  | met {table : EdgeTable} {seen rest : List Bytes} :
      Searches index target table seen (target :: rest) (true, table)
  | again {table : EdgeTable} {seen rest : List Bytes} {current : Bytes}
      {result : Bool × EdgeTable} : current ≠ target → current ∈ seen →
      Searches index target table seen rest result →
      Searches index target table seen (current :: rest) result
  | visit {table : EdgeTable} {seen rest : List Bytes} {current : Bytes}
      {result : Bool × EdgeTable} : current ≠ target → current ∉ seen →
      Searches index target (index.edgesFrom table current).2 (current :: seen)
        ((index.edgesFrom table current).1.reverse ++ rest) result →
      Searches index target table seen (current :: rest) result

/-- What holds while a search goes on: it has seen names of the index, each once, and what these
refer to was seen, too, or is pending. -/
structure Searching (index : Index) (target : Bytes) (table : EdgeTable)
    (seen pending : List Bytes) : Prop where
  knows : index.Knows table
  distinct : seen.Nodup
  seenNames : ∀ x, x ∈ seen → x ∈ index.names
  pendingNames : ∀ x, x ∈ pending → x ∈ index.names
  closed : ∀ x, x ∈ seen → ∀ y, y ∈ index.edges x → y ∈ seen ∨ y ∈ pending
  missed : target ∉ seen

section

variable {index : Index} {table : EdgeTable} {source target current : Bytes}
  {seen pending rest : List Bytes} {result : Bool × EdgeTable}

theorem knows_nil (index : Index) : index.Knows [] := fun _ _ h => nomatch h

theorem edgesFrom_of_knows (knows : index.Knows table) (name : Bytes) :
    (index.edgesFrom table name).1 = index.edges name ∧
      index.Knows (index.edgesFrom table name).2 := by
  unfold edgesFrom
  split
  · next known found => exact ⟨knows name known found, knows⟩
  · refine ⟨rfl, fun other known found => ?_⟩
    rw [List.lookup_cons] at found
    split at found
    · next same =>
      cases found
      rw [eq_of_beq same]
    · exact knows other known found

/-! ### One step of a search -/

/-- A name that was seen before is left out. -/
theorem Searching.again (on : Searching index target table seen (current :: rest))
    (before : current ∈ seen) : Searching index target table seen rest where
  knows := on.knows
  distinct := on.distinct
  seenNames := on.seenNames
  pendingNames x hx := on.pendingNames x (List.mem_cons_of_mem _ hx)
  closed x hx y hy := by
    rcases on.closed x hx y hy with there | waits
    · exact .inl there
    · rcases List.mem_cons.mp waits with rfl | later
      · exact .inl before
      · exact .inr later
  missed := on.missed

/-- A name that is visited has been seen, and what it refers to is pending. -/
theorem Searching.visit (on : Searching index target table seen (current :: rest))
    (other : current ≠ target) (new : current ∉ seen) :
    Searching index target (index.edgesFrom table current).2 (current :: seen)
      ((index.edgesFrom table current).1.reverse ++ rest) := by
  obtain ⟨edges, knows⟩ := edgesFrom_of_knows on.knows current
  rw [edges]
  refine ⟨knows, List.nodup_cons.mpr ⟨new, on.distinct⟩, fun x hx => ?_, fun x hx => ?_,
    fun x hx y hy => ?_, fun met => ?_⟩
  · rcases List.mem_cons.mp hx with rfl | before
    · exact on.pendingNames x List.mem_cons_self
    · exact on.seenNames x before
  · rcases List.mem_append.mp hx with next | waits
    · exact edges_subset_names (List.mem_reverse.mp next)
    · exact on.pendingNames x (List.mem_cons_of_mem _ waits)
  · rcases List.mem_cons.mp hx with rfl | before
    · exact .inr (List.mem_append_left _ (List.mem_reverse.mpr hy))
    · rcases on.closed x before y hy with there | waits
      · exact .inl (List.mem_cons_of_mem _ there)
      · rcases List.mem_cons.mp waits with rfl | later
        · exact .inl List.mem_cons_self
        · exact .inr (List.mem_append_right _ later)
  · rcases List.mem_cons.mp met with same | before
    · exact other same.symm
    · exact on.missed before

/-- The names that are passed over before a visit make no difference. -/
theorem Searching.dropWhile (on : Searching index target table seen pending) :
    Searching index target table seen
      (pending.dropWhile fun name => name ≠ target && seen.contains name) := by
  induction pending with
  | nil => exact on
  | cons first rest ih =>
    rw [List.dropWhile_cons]
    split
    · next dropped => exact ih (on.again (by simpa using (Bool.and_eq_true_iff.mp dropped).2))
    · exact on

theorem Searches.of_dropWhile (h : Searches index target table seen
      (pending.dropWhile fun name => name ≠ target && seen.contains name) result) :
    Searches index target table seen pending result := by
  induction pending with
  | nil => exact h
  | cons first rest ih =>
    rw [List.dropWhile_cons] at h
    split at h
    · next dropped =>
      obtain ⟨other, before⟩ := Bool.and_eq_true_iff.mp dropped
      exact .again (by simpa using other) (by simpa using before) (ih h)
    · exact h

/-! ### Whole searches -/

/-- The search comes to its end if as many visits are allowed as there are names left to be seen,
and one more. -/
theorem Searching.ends {visits : Nat} (on : Searching index target table seen pending)
    (enough : index.names.length < seen.length + visits) :
    Searches index target table seen pending (index.search target visits table seen pending) := by
  induction visits generalizing table seen pending with
  | zero =>
    have most := (on.distinct.subperm on.seenNames).length_le
    omega
  | succ visits ih =>
    rw [search]
    refine Searches.of_dropWhile ?_
    have left := on.dropWhile
    split
    · next none =>
      rw [none]
      exact .exhausted
    · next current rest found =>
      rw [found] at left ⊢
      split
      · next same =>
        subst same
        exact .met
      · next other =>
        have new : current ∉ seen := by simpa [other] using (head_mem_of_dropWhile found).1
        refine .visit other new (ih (left.visit other new) ?_)
        rw [List.length_cons]
        omega

/-- A search leaves a table of edges for the next one. -/
theorem Searches.knows (h : Searches index target table seen pending result)
    (knows : index.Knows table) : index.Knows result.2 := by
  induction h with
  | exhausted => exact knows
  | met => exact knows
  | again _ _ _ ih => exact ih knows
  | visit _ _ _ ih => exact ih (edgesFrom_of_knows knows _).2

/-- What holds of the pending names and of all that they lead to holds of the target, if it is
met. -/
theorem Searches.sound {P : Bytes → Prop} (step : ∀ x y, P x → y ∈ index.edges x → P y)
    (h : Searches index target table seen pending result) (knows : index.Knows table)
    (start : ∀ x, x ∈ pending → P x) (met : result.1 = true) : P target := by
  induction h with
  | exhausted => exact nomatch met
  | met => exact start _ List.mem_cons_self
  | again _ _ _ ih => exact ih knows (fun x hx => start x (List.mem_cons_of_mem _ hx)) met
  | @visit table _ rest current _ _ _ _ ih =>
    obtain ⟨edges, knows⟩ := edgesFrom_of_knows knows current
    refine ih knows (fun x hx => ?_) met
    rcases List.mem_append.mp hx with next | waits
    · exact step current x (start current List.mem_cons_self) (edges ▸ List.mem_reverse.mp next)
    · exact start x (List.mem_cons_of_mem _ waits)

/-- If the target is not met, there are names without it that no edge leads out of, and all that was
pending is among them. -/
theorem Searches.complete (h : Searches index target table seen pending result)
    (on : Searching index target table seen pending) (unmet : result.1 = false) :
    ∃ all : List Bytes, target ∉ all ∧ (∀ x, x ∈ seen ∨ x ∈ pending → x ∈ all) ∧
      ∀ x, x ∈ all → ∀ y, y ∈ index.edges x → y ∈ all := by
  induction h with
  | @exhausted table seen =>
    refine ⟨seen, on.missed, fun x hx => hx.resolve_right (List.not_mem_nil), fun x hx y hy => ?_⟩
    exact (on.closed x hx y hy).resolve_right List.not_mem_nil
  | met => exact nomatch unmet
  | again _ before _ ih =>
    obtain ⟨all, outside, inside, closed⟩ := ih (on.again before) unmet
    refine ⟨all, outside, fun x hx => ?_, closed⟩
    rcases hx with there | waits
    · exact inside x (.inl there)
    · rcases List.mem_cons.mp waits with rfl | later
      · exact inside x (.inl before)
      · exact inside x (.inr later)
  | visit other new _ ih =>
    obtain ⟨all, outside, inside, closed⟩ := ih (on.visit other new) unmet
    refine ⟨all, outside, fun x hx => ?_, closed⟩
    rcases hx with there | waits
    · exact inside x (.inl (List.mem_cons_of_mem _ there))
    · rcases List.mem_cons.mp waits with rfl | later
      · exact inside x (.inl List.mem_cons_self)
      · exact inside x (.inr (List.mem_append_right _ later))

theorem searching_start (knows : index.Knows table) (source target : Bytes) :
    Searching index target (index.edgesFrom table source).2 []
      (index.edgesFrom table source).1.reverse := by
  obtain ⟨edges, knows⟩ := edgesFrom_of_knows knows source
  rw [edges]
  exact ⟨knows, List.nodup_nil, List.forall_mem_nil _,
    fun x hx => edges_subset_names (List.mem_reverse.mp hx), List.forall_mem_nil _,
    List.not_mem_nil⟩

/-- Whatever earlier searches have left, a search that starts with what the source refers to comes
to its end. -/
theorem searches_reachesFrom (knows : index.Knows table) (source target : Bytes) :
    Searches index target (index.edgesFrom table source).2 []
      (index.edgesFrom table source).1.reverse (index.reachesFrom table source target) :=
  (searching_start knows source target).ends (by simp)

theorem knows_reachesFrom (knows : index.Knows table) (source target : Bytes) :
    index.Knows (index.reachesFrom table source target).2 :=
  (searches_reachesFrom knows source target).knows (edgesFrom_of_knows knows source).2

theorem reachesFrom_iff (knows : index.Knows table) :
    (index.reachesFrom table source target).1 = true ↔ index.Leads source target := by
  obtain ⟨edges, knows'⟩ := edgesFrom_of_knows knows source
  have ends := searches_reachesFrom knows source target
  have first : ∀ x, x ∈ (index.edgesFrom table source).1.reverse ↔ x ∈ index.edges source := by
    simp [edges]
  constructor
  · exact ends.sound (fun _ _ => .step) knows' fun x hx => .edge ((first x).mp hx)
  · intro chain
    cases outcome : (index.reachesFrom table source target).1 with
    | true => rfl
    | false =>
      obtain ⟨all, outside, inside, closed⟩ :=
        ends.complete (searching_start knows source target) outcome
      have reached : ∀ x, index.Leads source x → x ∈ all := fun x chain => by
        induction chain with
        | edge e => exact inside _ (.inr ((first _).mpr e))
        | step _ e ih => exact closed _ ih _ e
      exact absurd (reached target chain) outside

end

theorem reaches_iff {index : Index} {source target : Bytes} :
    index.reaches source target = true ↔ index.Leads source target :=
  reachesFrom_iff (knows_nil index)

theorem closesCycleFrom_iff {index : Index} {table : EdgeTable} (knows : index.Knows table)
    {source target : Bytes} : (index.closesCycleFrom table source target).1 = true ↔
      source = target ∨ index.Leads target source := by
  unfold closesCycleFrom
  split
  · next same => simp [same]
  · next other => rw [reachesFrom_iff knows, or_iff_right other]

theorem closesCycle_iff {index : Index} {source target : Bytes} :
    index.closesCycle source target = true ↔ source = target ∨ index.Leads target source :=
  closesCycleFrom_iff (knows_nil index)

theorem closesCycle_of_ne {index : Index} {source target : Bytes} (h : source ≠ target) :
    index.closesCycle source target = index.reaches target source := by
  rw [closesCycle, closesCycleFrom, if_neg h, reaches]

end Index

end HeaderForge
