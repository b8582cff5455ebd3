import HeaderForge.Build.Composition
import Mathlib.Data.List.Nodup
/-!
# Traversing composed schemas

The walk that flattens a schema decides by two guards whether it goes on at a named schema: by the
names that are open, and by those that have contributed. What it should do takes one set of names to
say: go through the parts of a schema from left to right, follow each reference, and expand every
named schema where it is met for the first time.

1. `Index.Traverses` is that traversal. It relates a list of parts to the `Meeting`s on the way, and
   the names that are open only decide how a schema is met again.
2. `Traverses.unique`: there is one traversal at most.
3. `Traverses.sites_nodup`: no fragment is met twice.
4. `Noted.traverse`: only the name that is open from the start is noted as reused.
-/

namespace HeaderForge

/-! ## Parts -/

namespace Schema

def fragment? : Schema → Option Fragment
  | object info properties required extra => some ⟨info, properties, required, extra⟩
  | _ => none

mutual

/-- The parts of a schema that are no compositions, each with the numbers of the members that lead
to it. -/
def parts (path : List Nat) : Schema → List (List Nat × Schema)
  | allOf _ members => partsOfMembers path 0 members
  | s => [(path, s)]

def partsOfMembers (path : List Nat) (n : Nat) : List Schema → List (List Nat × Schema)
  | [] => []
  | member :: rest => parts (path ++ [n]) member ++ partsOfMembers path (n + 1) rest

end

/-- What an induction over the parts of a schema has to show. The second predicate is about members,
which are numbered from `n` on. -/
structure PartsStep (one : List Nat → Schema → Prop) (many : List Nat → Nat → List Schema → Prop) :
    Prop where
  allOf : ∀ path info members, many path 0 members → one path (.allOf info members)
  single : ∀ path s, (∀ info members, s ≠ .allOf info members) → one path s
  none : ∀ path n, many path n []
  more : ∀ path n member rest, one (path ++ [n]) member → many path (n + 1) rest →
    many path n (member :: rest)

section

variable (one : List Nat → Schema → Prop) (many : List Nat → Nat → List Schema → Prop)
  (step : PartsStep one many)
include step

mutual

theorem parts_induction (path : List Nat) (s : Schema) : one path s := by
  cases s with
  | allOf info members =>
    exact step.allOf path info members (partsOfMembers_induction path 0 members)
  | primitive | enumeration | reference | array | object | union =>
    exact step.single path _ fun _ _ same => by cases same
termination_by structural s

theorem partsOfMembers_induction (path : List Nat) (n : Nat) (members : List Schema) :
    many path n members := by
  cases members with
  | nil => exact step.none path n
  | cons member rest =>
    exact step.more path n member rest (parts_induction (path ++ [n]) member)
      (partsOfMembers_induction path (n + 1) rest)
termination_by structural members

end

end

theorem path_unique {path q : List Nat} {n k : Nat} (h : path ++ [n] <+: q)
    (h' : path ++ [k] <+: q) : n = k := by
  have same : path ++ [n] = path ++ [k] :=
    (List.prefix_of_prefix_length_le h h' (by simp)).eq_of_length (by simp)
  simpa using same

/-- Every part of a schema has a path of its own. -/
theorem parts_nodup (path : List Nat) (s : Schema) :
    (∀ q, q ∈ (s.parts path).map Prod.fst → path <+: q) ∧
      ((s.parts path).map Prod.fst).Nodup := by
  -- The paths of members start with different numbers.
  refine parts_induction
    (fun path s => (∀ q, q ∈ (s.parts path).map Prod.fst → path <+: q) ∧
      ((s.parts path).map Prod.fst).Nodup)
    (fun path n members =>
      (∀ q, q ∈ (partsOfMembers path n members).map Prod.fst → ∃ k, n ≤ k ∧ path ++ [k] <+: q) ∧
        ((partsOfMembers path n members).map Prod.fst).Nodup)
    ⟨?allOf, ?single, ?none, ?more⟩ path s
  case allOf =>
    intro path info members ih
    rw [parts]
    refine ⟨fun q h => ?_, ih.2⟩
    obtain ⟨k, -, front⟩ := ih.1 q h
    exact (List.prefix_append path [k]).trans front
  case single =>
    intro path s single
    rw [parts]
    · simp
    · exact single
  case none =>
    intro path n
    simp [partsOfMembers]
  case more =>
    intro path n member rest ih others
    rw [partsOfMembers, List.map_append]
    refine ⟨fun q h => ?_, ih.2.append others.2 fun q here there => ?_⟩
    · rcases List.mem_append.mp h with here | later
      · exact ⟨n, Nat.le_refl n, ih.1 q here⟩
      · obtain ⟨k, above, front⟩ := others.1 q later
        exact ⟨k, Nat.le_of_succ_le above, front⟩
    · obtain ⟨k, above, front⟩ := others.1 q there
      have same := path_unique (ih.1 q here) front
      omega

end Schema

/-- Where a part stands: in which named schema, and at the end of which members. -/
structure Site where
  schemaName : Bytes
  path : List Nat
deriving DecidableEq, Repr

def place (schemaName : Bytes) (part : List Nat × Schema) : Site × Schema :=
  (⟨schemaName, part.1⟩, part.2)

/-- The parts of a named schema, each with its site. -/
def NamedSchema.placed (s : NamedSchema) : List (Site × Schema) :=
  (s.schema.parts []).map (place s.name)

theorem NamedSchema.placed_nodup (s : NamedSchema) : (s.placed.map Prod.fst).Nodup ∧
    ∀ p, p ∈ s.placed → p.1.schemaName = s.name := by
  have sites : s.placed.map Prod.fst = ((s.schema.parts []).map Prod.fst).map (Site.mk s.name) := by
    simp [placed, place, Function.comp_def]
  constructor
  · rw [sites]
    refine (Schema.parts_nodup [] s.schema).2.map fun p q same => ?_
    simpa using same
  · intro p h
    obtain ⟨part, -, rfl⟩ := List.mem_map.mp h
    rfl

/-! ## Meetings -/

/-- What a traversal comes upon. -/
inductive Meeting where
  /-- An object that fields are read from. -/
  | fragment (site : Site) (fragment : Fragment)
  /-- A named schema for the first time, which is then expanded. -/
  | first (name : Bytes)
  /-- A named schema that was met before, whether it is still being expanded or not. -/
  | again (name : Bytes) (isOpen : Bool)

namespace Meeting

def site? : Meeting → Option Site
  | fragment site _ => some site
  | _ => none

def fragment? : Meeting → Option Fragment
  | fragment _ f => some f
  | _ => none

def first? : Meeting → Option Bytes
  | first name => some name
  | _ => none

/-- The objects that are met, in order. -/
def fragments (meetings : List Meeting) : List Fragment := meetings.filterMap fragment?

/-- Where these objects stand. -/
def sites (meetings : List Meeting) : List Site := meetings.filterMap site?

/-- The named schemas that are expanded, in order. -/
def firsts (meetings : List Meeting) : List Bytes := meetings.filterMap first?

theorem fragments_append (ms ns : List Meeting) :
    fragments (ms ++ ns) = fragments ms ++ fragments ns := List.filterMap_append

theorem sites_append (ms ns : List Meeting) : sites (ms ++ ns) = sites ms ++ sites ns :=
  List.filterMap_append

theorem firsts_append (ms ns : List Meeting) : firsts (ms ++ ns) = firsts ms ++ firsts ns :=
  List.filterMap_append

@[simp] theorem firsts_nil : firsts [] = [] := rfl

@[simp] theorem firsts_fragment (site : Site) (f : Fragment) (ms : List Meeting) :
    firsts (fragment site f :: ms) = firsts ms := rfl

@[simp] theorem firsts_first (name : Bytes) (ms : List Meeting) :
    firsts (first name :: ms) = name :: firsts ms := rfl

@[simp] theorem firsts_again (name : Bytes) (isOpen : Bool) (ms : List Meeting) :
    firsts (again name isOpen :: ms) = firsts ms := rfl

@[simp] theorem fragments_first (name : Bytes) (ms : List Meeting) :
    fragments (first name :: ms) = fragments ms := rfl

@[simp] theorem sites_first (name : Bytes) (ms : List Meeting) :
    sites (first name :: ms) = sites ms := rfl

/-- How a meeting is noted: an expanded schema at the end, and one that is still being expanded as
reused by its name, unless that is noted already. -/
def note (noted : List Ancestor) : Meeting → List Ancestor
  | first name => noted ++ [⟨name, [], false⟩]
  | again name true =>
    if noted.any fun a => a.schemaName = name then noted else noted ++ [⟨name, [], true⟩]
  | _ => noted

/-- The names that are noted as expanded, in order. -/
def expanded (noted : List Ancestor) : List Bytes :=
  (noted.filter fun a => !a.reused).map Ancestor.schemaName

/-- Every expanded schema is noted, in the order of the meetings. -/
theorem expanded_foldl_note (ms : List Meeting) (noted : List Ancestor) :
    expanded (ms.foldl note noted) = expanded noted ++ firsts ms := by
  induction ms generalizing noted with
  | nil => simp
  | cons m ms ih =>
    rw [List.foldl_cons, ih]
    cases m with
    | fragment site f => rfl
    | first name => simp [note, expanded]
    | again name isOpen =>
      cases isOpen with
      | false => rfl
      | true =>
        rw [note]
        split
        · rfl
        · simp [expanded]

end Meeting

open Meeting

/-! ## The traversal -/

namespace Index

/-- The traversal of parts from left to right. A reference to a name that has been visited is not
followed, and any other one is followed at once, before the parts that come after it. -/
inductive Traverses (index : Index) :
    (opened visited : List Bytes) → List (Site × Schema) → List Meeting → Prop
  | done {opened visited : List Bytes} : Traverses index opened visited [] []
  | fragment {opened visited : List Bytes} {site : Site} {part : Schema} {fragment : Fragment}
      {rest : List (Site × Schema)} {later : List Meeting} :
      part.fragment? = some fragment → Traverses index opened visited rest later →
      Traverses index opened visited ((site, part) :: rest) (.fragment site fragment :: later)
  | first {opened visited : List Bytes} {site : Site} {part : Schema} {token : Bytes}
      {target : NamedSchema} {rest : List (Site × Schema)} {inner later : List Meeting} :
      part.token? = some token → index.resolve? token = some target → target.name ∉ visited →
      Traverses index (target.name :: opened) (target.name :: visited) target.placed inner →
      Traverses index opened ((firsts inner).reverse ++ target.name :: visited) rest later →
      Traverses index opened visited ((site, part) :: rest) (.first target.name :: inner ++ later)
  | again {opened visited : List Bytes} {site : Site} {part : Schema} {token : Bytes}
      {target : NamedSchema} {rest : List (Site × Schema)} {later : List Meeting} :
      part.token? = some token → index.resolve? token = some target → target.name ∈ visited →
      Traverses index opened visited rest later →
      Traverses index opened visited ((site, part) :: rest)
        (.again target.name (target.name ∈ opened) :: later)
  | nothing {opened visited : List Bytes} {site : Site} {part : Schema}
      {rest : List (Site × Schema)} {later : List Meeting} :
      part.fragment? = none → part.token? = none → Traverses index opened visited rest later →
      Traverses index opened visited ((site, part) :: rest) later

namespace Traverses

variable {index : Index} {opened visited : List Bytes} {ps qs : List (Site × Schema)}
  {ms ns : List Meeting}

/-- After the parts of one list, those of another one are traversed with what has been visited. -/
theorem append (h : Traverses index opened visited ps ms)
    (h' : Traverses index opened ((firsts ms).reverse ++ visited) qs ns) :
    Traverses index opened visited (ps ++ qs) (ms ++ ns) := by
  induction h with
  | done => exact h'
  | fragment found _ ih => exact .fragment found (ih h')
  | first isToken found new inside _ _ ih =>
    rw [List.append_assoc]
    refine .first isToken found new inside (ih ?_)
    simpa [firsts_append] using h'
  | again isToken found seen _ ih => exact .again isToken found seen (ih h')
  | nothing noFragment noToken _ ih => exact .nothing noFragment noToken (ih h')

theorem no_fragment_of_token {part : Schema} {token : Bytes} (h : part.token? = some token) :
    part.fragment? = none := by
  cases part with
  | reference => rfl
  | primitive | enumeration | array | object | allOf | union => exact nomatch h

/-- What is met is decided by the parts and by the names that are open and visited. -/
theorem unique (h : Traverses index opened visited ps ms)
    (h' : Traverses index opened visited ps ns) : ns = ms := by
  induction h generalizing ns with
  | done =>
    cases h'
    rfl
  | fragment found _ ih =>
    cases h' with
    | fragment found' others =>
      rw [found] at found'
      cases found'
      rw [ih others]
    | first isToken | again isToken =>
      rw [no_fragment_of_token isToken] at found
      exact nomatch found
    | nothing none => exact nomatch found.symm.trans none
  | first isToken found new _ _ ihInner ih =>
    cases h' with
    | fragment found' =>
      rw [no_fragment_of_token isToken] at found'
      exact nomatch found'
    | first isToken' found' _ inside others =>
      cases isToken.symm.trans isToken'
      cases found.symm.trans found'
      cases ihInner inside
      rw [ih others]
    | again isToken' found' seen =>
      cases isToken.symm.trans isToken'
      cases found.symm.trans found'
      exact absurd seen new
    | nothing _ none => exact nomatch isToken.symm.trans none
  | again isToken found seen _ ih =>
    cases h' with
    | fragment found' =>
      rw [no_fragment_of_token isToken] at found'
      exact nomatch found'
    | first isToken' found' new =>
      cases isToken.symm.trans isToken'
      cases found.symm.trans found'
      exact absurd seen new
    | again isToken' found' _ others =>
      cases isToken.symm.trans isToken'
      cases found.symm.trans found'
      rw [ih others]
    | nothing _ none => exact nomatch isToken.symm.trans none
  | nothing noFragment noToken _ ih =>
    cases h' with
    | fragment found => exact nomatch noFragment.symm.trans found
    | first isToken | again isToken => exact nomatch noToken.symm.trans isToken
    | nothing _ _ others => exact ih others

/-- A name is expanded once at most, and not if it was visited before. -/
theorem firsts_nodup (h : Traverses index opened visited ps ms) :
    (firsts ms).Nodup ∧ ∀ name, name ∈ firsts ms → name ∉ visited := by
  induction h with
  | done => simp
  | fragment _ _ ih => exact ih
  | first _ _ new _ _ ihInner ih =>
    obtain ⟨once, fresh⟩ := ihInner
    obtain ⟨later, after⟩ := ih
    rw [List.cons_append, firsts_first, firsts_append]
    refine ⟨List.nodup_cons.mpr ⟨fun here => ?_, ?_⟩, fun name here => ?_⟩
    · rcases List.mem_append.mp here with inside | rest
      · exact fresh _ inside List.mem_cons_self
      · exact after _ rest (by simp)
    · refine once.append later fun name inside rest => ?_
      exact after name rest (by simp [inside])
    · rcases List.mem_cons.mp here with rfl | here
      · exact new
      · rcases List.mem_append.mp here with inside | rest
        · exact fun before => fresh name inside (List.mem_cons_of_mem _ before)
        · exact fun before => after name rest (by simp [before])
  | again _ _ _ _ ih => exact ih
  | nothing _ _ _ ih => exact ih

/-- A fragment that is met is one of the parts, or stands in a schema that was expanded. -/
theorem site_of_mem (h : Traverses index opened visited ps ms) :
    ∀ site, site ∈ sites ms → site ∈ ps.map Prod.fst ∨ site.schemaName ∈ firsts ms := by
  induction h with
  | done => exact fun _ here => nomatch here
  | fragment _ _ ih =>
    intro site here
    rcases List.mem_cons.mp here with rfl | later
    · exact .inl List.mem_cons_self
    · exact (ih site later).imp_left (List.mem_cons_of_mem _)
  | @first _ _ _ _ _ target _ _ _ _ _ _ _ _ ihInner ih =>
    intro site here
    rw [List.cons_append, sites_first, sites_append] at here
    rw [List.cons_append, firsts_first, firsts_append]
    rcases List.mem_append.mp here with inside | later
    · refine .inr ?_
      rcases ihInner site inside with part | expanded
      · obtain ⟨p, placed, rfl⟩ := List.mem_map.mp part
        rw [target.placed_nodup.2 p placed]
        exact List.mem_cons_self
      · exact List.mem_cons_of_mem _ (List.mem_append_left _ expanded)
    · refine (ih site later).imp (List.mem_cons_of_mem _) fun expanded => ?_
      exact List.mem_cons_of_mem _ (List.mem_append_right _ expanded)
  | again _ _ _ _ ih => exact fun site here => (ih site here).imp_left (List.mem_cons_of_mem _)
  | nothing _ _ _ ih => exact fun site here => (ih site here).imp_left (List.mem_cons_of_mem _)

/-- No fragment is met twice, if all parts stand at different sites in schemas that have been
visited. -/
theorem sites_nodup (h : Traverses index opened visited ps ms) (apart : (ps.map Prod.fst).Nodup)
    (known : ∀ p, p ∈ ps → p.1.schemaName ∈ visited) : (sites ms).Nodup := by
  induction h with
  | done => exact List.nodup_nil
  | @fragment _ _ site _ _ rest _ _ others ih =>
    obtain ⟨new, apart⟩ := List.nodup_cons.mp apart
    have knownRest := fun p hp => known p (List.mem_cons_of_mem _ hp)
    refine List.nodup_cons.mpr ⟨fun again => ?_, ih apart knownRest⟩
    -- A fragment that stands in a schema expanded later is another one.
    rcases others.site_of_mem site again with part | expanded
    · exact new part
    · exact others.firsts_nodup.2 _ expanded (known _ List.mem_cons_self)
  | @first _ visited _ _ _ target rest inner _ _ _ new inside others ihInner ih =>
    obtain ⟨-, apart⟩ := List.nodup_cons.mp apart
    have knownRest : ∀ p, p ∈ rest → p.1.schemaName ∈ visited :=
      fun p hp => known p (List.mem_cons_of_mem _ hp)
    obtain ⟨placedApart, placedIn⟩ := target.placed_nodup
    have once := ihInner placedApart fun p hp => by
      rw [placedIn p hp]
      exact List.mem_cons_self
    have later := ih apart fun p hp => by simp [knownRest p hp]
    rw [List.cons_append, sites_first, sites_append]
    refine once.append later fun site here there => ?_
    have expanded : site.schemaName ∈ (firsts inner).reverse ++ [target.name] := by
      rcases inside.site_of_mem site here with part | expanded
      · obtain ⟨p, placed, rfl⟩ := List.mem_map.mp part
        simp [placedIn p placed]
      · simp [expanded]
    have fresh : site.schemaName ∉ visited := by
      rcases List.mem_append.mp expanded with inner | itself
      · exact fun before => inside.firsts_nodup.2 _ (List.mem_reverse.mp inner)
          (List.mem_cons_of_mem _ before)
      · rw [List.mem_singleton.mp itself]
        exact new
    rcases others.site_of_mem site there with part | after
    · obtain ⟨p, hp, rfl⟩ := List.mem_map.mp part
      exact fresh (knownRest p hp)
    · refine others.firsts_nodup.2 _ after ?_
      rw [List.append_cons]
      exact List.mem_append_left _ expanded
  | again _ _ _ _ ih =>
    exact ih (List.nodup_cons.mp apart).2 fun p hp => known p (List.mem_cons_of_mem _ hp)
  | nothing _ _ _ ih =>
    exact ih (List.nodup_cons.mp apart).2 fun p hp => known p (List.mem_cons_of_mem _ hp)

end Traverses

/-! ## Notes -/

/-- What the notes of a traversal that starts with one name open are like on the way, of whose
meetings there are `all`. Only that name is noted as reused, for every other one that is open was
noted when it was expanded. -/
structure Noted (root : Bytes) (all : List Meeting) (opened visited : List Bytes)
    (noted : List Ancestor) : Prop where
  once : (noted.map Ancestor.schemaName).Nodup
  known : ∀ a, a ∈ noted → a.schemaName ∈ visited
  opens : ∀ name, name ∈ opened → name = root ∨ name ∈ noted.map Ancestor.schemaName
  reused : ∀ a, a ∈ noted → a.reused = true → a.schemaName = root ∧ .again root true ∈ all

namespace Noted

variable {root name : Bytes} {all : List Meeting} {opened visited : List Bytes}
  {noted : List Ancestor}

/-- A note of a new name keeps every other one. -/
theorem once_append (h : Noted root all opened visited noted) {a : Ancestor}
    (new : a.schemaName ∉ noted.map Ancestor.schemaName) :
    ((noted ++ [a]).map Ancestor.schemaName).Nodup := by
  rw [List.map_append, List.map_cons, List.map_nil]
  refine h.once.append (List.nodup_singleton _) fun name here there => ?_
  rw [List.mem_singleton.mp there] at here
  exact new here

theorem opens_append (h : Noted root all opened visited noted) (a : Ancestor) :
    ∀ name, name ∈ opened → name = root ∨ name ∈ (noted ++ [a]).map Ancestor.schemaName := by
  intro name isOpen
  refine (h.opens name isOpen).imp_right fun here => ?_
  rw [List.map_append]
  exact List.mem_append_left _ here

theorem expand (h : Noted root all opened visited noted) (new : name ∉ visited) :
    Noted root all (name :: opened) (name :: visited) (noted ++ [⟨name, [], false⟩]) := by
  refine ⟨h.once_append fun here => ?_, fun a here => ?_, fun other isOpen => ?_,
    fun a here reused => ?_⟩
  · obtain ⟨a, there, rfl⟩ := List.mem_map.mp here
    exact new (h.known a there)
  · rcases List.mem_append.mp here with before | itself
    · exact List.mem_cons_of_mem _ (h.known a before)
    · rw [List.mem_singleton.mp itself]
      exact List.mem_cons_self
  · rcases List.mem_cons.mp isOpen with rfl | before
    · exact .inr (by simp)
    · exact h.opens_append _ other before
  · rcases List.mem_append.mp here with before | itself
    · exact h.reused a before reused
    · rw [List.mem_singleton.mp itself] at reused
      exact nomatch reused

theorem close (h : Noted root all (name :: opened) visited noted) :
    Noted root all opened visited noted :=
  ⟨h.once, h.known, fun other isOpen => h.opens other (List.mem_cons_of_mem _ isOpen), h.reused⟩

theorem again (h : Noted root all opened visited noted) (seen : name ∈ visited)
    (met : .again name (name ∈ opened) ∈ all) :
    Noted root all opened visited (note noted (.again name (name ∈ opened))) := by
  by_cases isOpen : name ∈ opened
  · rw [decide_eq_true isOpen] at met ⊢
    rw [note]
    split
    · exact h
    -- A name that is open and not noted is the one that was open at the start.
    · next unnoted =>
      have new : name ∉ noted.map Ancestor.schemaName := by simpa using unnoted
      have itself := (h.opens name isOpen).resolve_right new
      refine ⟨h.once_append new, fun a here => ?_, h.opens_append _, fun a here reused => ?_⟩
      · rcases List.mem_append.mp here with before | last
        · exact h.known a before
        · rw [List.mem_singleton.mp last]
          exact seen
      · rcases List.mem_append.mp here with before | last
        · exact h.reused a before reused
        · rw [List.mem_singleton.mp last]
          exact ⟨itself, itself ▸ met⟩
  · rw [decide_eq_false isOpen]
    exact h

theorem traverse {index : Index} {ps : List (Site × Schema)} {ms : List Meeting}
    (h : Noted root all opened visited noted) (way : index.Traverses opened visited ps ms)
    (part : ms ⊆ all) :
    Noted root all opened ((firsts ms).reverse ++ visited) (ms.foldl note noted) := by
  induction way generalizing noted with
  | done => exact h
  | fragment _ _ ih => exact ih h (List.subset_of_cons_subset part)
  | first _ _ new _ _ ihInner ih =>
    -- The target is noted first, then what is met in it, and then what comes after it.
    rw [List.cons_append, List.cons_subset, List.append_subset] at part
    have inside := ihInner (h.expand new) part.2.1
    rw [List.cons_append, List.foldl_cons, List.foldl_append]
    simpa [firsts_append, note] using ih inside.close part.2.2
  | again _ _ seen _ ih =>
    rw [List.cons_subset] at part
    exact ih (h.again seen part.1) part.2
  | nothing _ _ _ ih => exact ih h part

end Noted

end Index

end HeaderForge
