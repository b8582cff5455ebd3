import HeaderForge.Files.Work
import HeaderForge.Proofs.Files.Places
import HeaderForge.Proofs.Gives
import Mathlib.Logic.Relation
/-!
# Reasoning about work on files

A step is described by what it may do to the tree, change by change, and by what holds where it
succeeds. Whether it fails or not, its changes are of the kind that is allowed. What may come in its
way is given beforehand, so a change can be told by the fault that it met.

1. `Disk.Extends` relates a disk to what it becomes by allowed changes.
2. `Work.Triple` is the description, with one rule for each way to build a step.
3. `Work.gives_tree`, `Work.gives_attempt`, … are rules for what a step gives from one state.
4. `Work.Breaks` says what the files are like where a step fails, and `Work.Leaves` where it ends,
   whether it fails or not.
-/

namespace HeaderForge

/-! ## Faults -/

namespace Fault

variable {fault : Option Fault} {text : Bytes} {result : Except FileError FileTree} {t : FileTree}

theorem ok_of_outcome (h : outcome fault result = .ok t) : result = .ok t := by
  unfold outcome at h
  split at h
  · exact nomatch h
  · exact h

theorem error_of_outcome {e : FileError} (h : outcome fault result = .error e) :
    fault = some (refused e) ∨ result = .error e := by
  unfold outcome at h
  split at h
  · cases h
    exact Or.inl rfl
  · exact Or.inr h

/-- What may come to a file of a text: all of it, or its beginning where the disk is full. -/
def Arrives (F : List (Option Fault)) (text comes : Bytes) : Prop :=
  comes = text ∨ ∃ room, some (.full room) ∈ F ∧ room < text.length ∧ comes = text.take room

theorem arrives_taken {F : List (Option Fault)} (known : ∀ f, fault = some f → some f ∈ F)
    (text : Bytes) : Arrives F text (taken fault text) := by
  unfold taken
  split
  · next room =>
    rcases Nat.lt_or_ge room text.length with short | whole
    · exact Or.inr ⟨room, known _ rfl, short, rfl⟩
    · exact Or.inl (List.take_of_length_le whole)
  · exact Or.inl rfl

theorem taken_eq (whole : cuts fault text = false) : taken fault text = text := by
  unfold taken
  split
  · exact List.take_of_length_le (Nat.le_of_not_lt (of_decide_eq_false whole))
  · rfl

end Fault

/-! ## Changes of a disk -/

namespace Disk

/-- The trees that there were, from the newest one back. -/
def trees (d : Disk) : List FileTree := d.current :: d.past

/-- No tree more, or one that came of an allowed change. -/
def Moves (R : FileTree → FileTree → Prop) (d later : Disk) : Prop :=
  later.trees = d.trees ∨ ∃ u, R d.current u ∧ later.trees = u :: d.trees

/-- Any number of changes, one after the other. -/
def Extends (R : FileTree → FileTree → Prop) : Disk → Disk → Prop :=
  Relation.ReflTransGen (Moves R)

/-- What a property of disks keeps in one change it keeps in any number of them. -/
theorem Extends.induct {R : FileTree → FileTree → Prop} {S : Disk → Prop}
    (same : ∀ d later : Disk, S d → later.trees = d.trees → S later)
    (change : ∀ (d later : Disk) u, S d → R d.current u → later.trees = u :: d.trees → S later)
    {d later : Disk} (grown : Extends R d later) (start : S d) : S later := by
  induction grown with
  | refl => exact start
  | tail _ moves ih =>
    rcases moves with stays | ⟨u, allowed, more⟩
    · exact same _ _ ih stays
    · exact change _ _ u ih allowed more

/-- What allowed changes preserve holds after any number of them. -/
theorem Extends.preserves {R : FileTree → FileTree → Prop} {S : FileTree → Prop}
    (stable : ∀ t u, S t → R t u → S u) {d later : Disk} (grown : Extends R d later)
    (start : S d.current) : S later.current := by
  refine grown.induct (S := fun d => S d.current) (fun _ _ holds stays => ?_)
    (fun _ _ u holds allowed more => ?_) start
  · rw [(List.cons.inj stays).1]
    exact holds
  · rw [(List.cons.inj more).1]
    exact stable _ u holds allowed

theorem Extends.grows {d later : Disk} (grown : Extends FileTree.Grows d later) :
    FileTree.Grows d.current later.current :=
  grown.preserves (S := FileTree.Grows d.current) (fun _ _ => FileTree.Grows.trans)
    (FileTree.Grows.refl _)

/-- Nothing is to come in the way. -/
def Sound (d : Disk) : Prop := ∀ f, f ∈ d.faults → f = none

theorem mem_of_fault? (d : Disk) {f : Fault} (h : d.fault? = some f) : some f ∈ d.faults := by
  rw [fault?, Option.join_eq_some_iff] at h
  exact List.mem_of_mem_head? h

theorem faults_met_subset (d : Disk) : d.met.faults ⊆ d.faults :=
  fun _ later => List.mem_of_mem_tail later

/-- Nothing is to be refused that the files allow. -/
def Permits (d : Disk) : Prop := ∀ e, some (.refused e) ∉ d.faults

theorem Sound.fault? {d : Disk} (sound : d.Sound) : d.fault? = none := by
  cases next : d.fault? with
  | none => rfl
  | some f => exact nomatch sound _ (d.mem_of_fault? next)

theorem Sound.met {d : Disk} (sound : d.Sound) : d.met.Sound :=
  fun f later => sound f (d.faults_met_subset later)

/-- In one of the changes of a disk, what was at a place became something else. -/
def Became (d : Disk) (p : Place) (old new : Option Bytes) : Prop :=
  ∃ later before after earlier, d.trees = later ++ after :: before :: earlier ∧
    before.textAt? p = old ∧ after.textAt? p = new

theorem became_of_trees {d later : Disk} {u : FileTree} (p : Place)
    (more : later.trees = u :: d.trees) :
    later.Became p (d.current.textAt? p) (u.textAt? p) :=
  ⟨[], d.current, u, d.past, more, rfl, rfl⟩

theorem Became.of_trees {d later : Disk} {p : Place} {old new : Option Bytes}
    (became : d.Became p old new) (ts : List FileTree) (more : later.trees = ts ++ d.trees) :
    later.Became p old new := by
  obtain ⟨front, before, after, earlier, equal, there, gone⟩ := became
  exact ⟨ts ++ front, before, after, earlier, by rw [more, equal, List.append_assoc], there, gone⟩

end Disk

namespace Work

variable {α β : Type} {F : List (Option Fault)} {R : FileTree → FileTree → Prop}

/-- With no other faults than these, from a tree that satisfies `P`, a step goes through allowed
changes only, and where it succeeds its result and the tree satisfy `Q`. -/
def Triple (F : List (Option Fault)) (R : FileTree → FileTree → Prop) (P : FileTree → Prop)
    (m : Work α) (Q : α → FileTree → Prop) : Prop :=
  ∀ w : Workspace, w.files.faults ⊆ F → P w.tree →
    (m.run.run w).2.files.faults ⊆ F ∧ Disk.Extends R w.files (m.run.run w).2.files ∧
      ∀ a, (m.run.run w).1 = .ok a → Q a (m.run.run w).2.tree

variable {P : FileTree → Prop} {m : Work α} {Q : α → FileTree → Prop}

/-! ## Rules -/

theorem Triple.mono {P' : FileTree → Prop} {Q' : α → FileTree → Prop} (h : Triple F R P m Q)
    (pre : ∀ t, P' t → P t) (post : ∀ a t, Q a t → Q' a t) : Triple F R P' m Q' := by
  intro w known start
  obtain ⟨left, allowed, ends⟩ := h w known (pre _ start)
  exact ⟨left, allowed, fun a ok => post a _ (ends a ok)⟩

theorem triple_pure {a : α} (h : ∀ t, P t → Q a t) : Triple F R P (pure a) Q := by
  intro w known start
  refine ⟨known, Relation.ReflTransGen.refl, fun b ok => ?_⟩
  cases ok
  exact h _ start

theorem triple_throw (kind : FailureKind) : Triple F R P (throw kind : Work α) Q := by
  intro w known _
  exact ⟨known, Relation.ReflTransGen.refl, fun a ok => nomatch ok⟩

theorem Triple.bind {f : α → Work β} {Q' : β → FileTree → Prop} (first : Triple F R P m Q)
    (next : ∀ a, Triple F R (Q a) (f a) Q') : Triple F R P (m >>= f) Q' := by
  intro w known start
  obtain ⟨left, allowed, ends⟩ := first w known start
  rw [run_bind]
  cases ran : m.run.run w with
  | mk outcome later =>
    rw [ran] at left allowed ends
    cases outcome with
    | error kind => exact ⟨left, allowed, fun b ok => nomatch ok⟩
    | ok a =>
      obtain ⟨left', more, ends'⟩ := next a later left (ends a rfl)
      exact ⟨left', allowed.trans more, ends'⟩

/-- What allowed changes preserve holds after a step as it did before. -/
theorem Triple.invariant {S : FileTree → Prop} (h : Triple F R P m Q) (holds : ∀ t, P t → S t)
    (stable : ∀ t u, S t → R t u → S u) : Triple F R P m fun a t => Q a t ∧ S t := by
  intro w known start
  obtain ⟨left, allowed, ends⟩ := h w known start
  exact ⟨left, allowed, fun a ok => ⟨ends a ok, allowed.preserves stable (holds _ start)⟩⟩

/-- What is known of a tree is known of each one that it is. -/
theorem triple_of_start (h : ∀ t, P t → Triple F R (fun u => u = t) m Q) : Triple F R P m Q :=
  fun w known start => h w.tree start w known rfl

/-- A fact about the step before is at hand in the next one. -/
theorem triple_of_fact {φ : Prop} (h : φ → Triple F R P m Q) :
    Triple F R (fun t => φ ∧ P t) m Q :=
  fun w known start => h start.1 w known start.2

/-- A step that only logs. -/
theorem triple_of_files {m : Work α} (files : ∀ w, (m.run.run w).2.files = w.files) :
    Triple F R P m fun _ => P := by
  intro w known start
  refine ⟨?_, ?_, fun a _ => ?_⟩
  · rw [files]
    exact known
  · rw [files]
    exact Relation.ReflTransGen.refl
  · rw [Workspace.tree, files]
    exact start

theorem triple_write (line : LogLine) : Triple F R P (write line) fun _ => P :=
  triple_of_files fun _ => rfl

theorem triple_fail (kind : FailureKind) (tag message : Bytes) :
    Triple F R P (fail kind tag message : Work α) Q :=
  (triple_write _).bind fun _ => triple_throw kind

/-- An attempt ends well whatever the step does, and says nothing about the tree. -/
theorem Triple.attempt (h : Triple F R P m Q) : Triple F R P (attempt m) fun _ _ => True := by
  intro w known start
  obtain ⟨left, allowed, _⟩ := h w known start
  exact ⟨left, allowed, fun _ _ => trivial⟩

theorem triple_tree {f : FileTree → Work β} {Q' : β → FileTree → Prop}
    (next : ∀ t, P t → Triple F R (fun u => u = t) (f t) Q') : Triple F R P (tree >>= f) Q' := by
  intro w known start
  exact next w.tree start w known rfl

theorem triple_setTree {u : FileTree} {Q : Unit → FileTree → Prop} (allowed : ∀ t, P t → R t u)
    (ends : ∀ t, P t → Q () u) : Triple F R P (setTree u) Q := by
  intro w known start
  refine ⟨known, Relation.ReflTransGen.single (Or.inr ⟨u, allowed _ start, rfl⟩), fun _ _ => ?_⟩
  exact ends _ start

theorem run_nextFault (w : Workspace) :
    nextFault.run.run w = (.ok w.files.fault?, { w with files := w.files.met }) := rfl

/-- The fault that comes next is one of those that may come. -/
theorem triple_nextFault :
    Triple F R P nextFault fun fault t => (∀ f, fault = some f → some f ∈ F) ∧ P t := by
  intro w known start
  refine ⟨fun f later => known (w.files.faults_met_subset later), ?_, fun fault ok => ?_⟩
  · exact Relation.ReflTransGen.single (Or.inl rfl)
  · cases ok
    exact ⟨fun f next => known (w.files.mem_of_fault? next), start⟩

/-! ## Operations on files -/

/-- Making folders changes no text. A step that goes on fails where that was refused. -/
theorem triple_makeFolders {path : Bytes} {refused : FileError → Work Unit}
    (grow : ∀ t, R t (t.makeFolders path).2)
    (fails : ∀ e, Triple F R (fun _ => True) (refused e) fun _ _ => False) :
    Triple F R P (makeFolders path refused) fun _ u =>
      ∃ t, P t ∧ t.makeFolders path = (none, u) := by
  refine triple_tree fun t start => ?_
  cases made : t.makeFolders path with
  | mk refusal u =>
    have grows : R t u := by
      have all := grow t
      rwa [made] at all
    cases refusal with
    | none =>
      refine (triple_setTree ?_ ?_ (Q := fun _ v => v = u)).bind fun _ => triple_pure ?_
      · rintro _ rfl
        exact grows
      · exact fun _ _ => rfl
      · rintro _ rfl
        exact ⟨t, start, made⟩
    -- What was made before the refusal stays.
    | some e =>
      refine (triple_setTree ?_ ?_ (Q := fun _ _ => True)).bind fun _ => ?_
      · rintro _ rfl
        exact grows
      · exact fun _ _ => trivial
      · exact (fails e).mono (fun _ _ => trivial) fun _ _ no => no.elim

theorem triple_commit {result : Except FileError FileTree} {refused : FileError → Work Unit}
    {Q : Unit → FileTree → Prop} (allowed : ∀ u, result = .ok u → ∀ t, P t → R t u ∧ Q () u)
    (fails : ∀ e, Triple F R P (refused e) Q) : Triple F R P (commit result refused) Q := by
  refine triple_nextFault.bind fun fault => triple_of_fact fun _ => ?_
  split
  · next u comes =>
    have done := allowed u (Fault.ok_of_outcome comes)
    exact triple_setTree (fun t h => (done t h).1) fun t h => (done t h).2
  · exact fails _

/-- A file is written as a whole, or as far as a disk that is full allows. -/
theorem triple_writeFile {path text : Bytes} {refused : FileError → Work Unit} {short : Work Unit}
    {S : FileTree → Prop}
    (put : ∀ comes t u, Fault.Arrives F text comes → P t → t.writeFile path comes = .ok u →
      R t u ∧ S u)
    (refusals : ∀ e, Triple F R P (refused e) fun _ => S)
    (shorts : Triple F R S short fun _ => S) :
    Triple F R P (writeFile path text refused short) fun _ => S := by
  refine triple_nextFault.bind fun fault => triple_of_fact fun known => triple_tree fun t start => ?_
  split
  · next e _ =>
    refine (refusals e).mono ?_ fun _ _ h => h
    rintro _ rfl
    exact start
  · next u comes =>
    have done := put _ t u (Fault.arrives_taken known text) start (Fault.ok_of_outcome comes)
    refine (triple_setTree ?_ ?_ (Q := fun _ => S)).bind fun _ => ?_
    · rintro _ rfl
      exact done.1
    · exact fun _ _ => done.2
    · split
      · exact shorts
      · exact triple_pure fun _ h => h

/-! ## What a step gives -/

section

variable {w : Workspace} {Q : α → Workspace → Prop} {Q' : β → Workspace → Prop}

/-- What a step is described by holds of what it gives. -/
theorem Triple.gives {Q : α → FileTree → Prop} (h : Triple w.files.faults R P m Q)
    (start : P w.tree) : Gives m w fun a u => Q a u.tree := by
  intro a u run
  have ends := (h w (List.Subset.refl _) start).2.2 a
  rw [run] at ends
  exact ends rfl

theorem gives_tree {f : FileTree → Work β} (next : Gives (f w.tree) w Q') :
    Gives (tree >>= f) w Q' :=
  fun b u run => next b u run

/-- A step goes on after a line of the log with the same files. -/
theorem gives_after_write {line : LogLine} {f : Unit → Work β}
    (next : ∀ u : Workspace, u.files = w.files → Gives (f ()) u Q') :
    Gives (write line >>= f) w Q' :=
  (Gives.modify (Q := fun _ u => u.files = w.files) rfl).bind fun _ => next

theorem gives_fail (kind : FailureKind) (tag message : Bytes) :
    Gives (fail kind tag message : Work α) w Q :=
  gives_after_write fun _ _ => Gives.throw kind

/-- An attempt returns whatever comes of the step. -/
theorem gives_attempt {m : Work α} {f : Except FailureKind α → Work β}
    (next : ∀ outcome u, m.run.run w = (outcome, u) → Gives (f outcome) u Q') :
    Gives (attempt m >>= f) w Q' := by
  refine (Gives.run (attempt m) w).bind fun outcome u attempted => ?_
  refine next outcome u ?_
  cases attempted
  rfl

theorem gives_commit {result : Except FileError FileTree} {refused : FileError → Work Unit}
    {Q : Unit → Workspace → Prop} (done : ∀ u, result = .ok u.tree → Q () u)
    (fails : ∀ e u, Gives (refused e) u Q) : Gives (commit result refused) w Q := by
  refine (Gives.any nextFault w).bind fun fault u _ => ?_
  split
  · next t comes => exact Gives.modify (done _ (Fault.ok_of_outcome comes))
  · exact fails _ u

/-- A write that succeeds has written all. -/
theorem gives_writeFile {path text : Bytes} {refused : FileError → Work Unit} {short : Work Unit}
    {Q : Unit → Workspace → Prop}
    (done : ∀ u, u.files.faults ⊆ w.files.faults → w.tree.writeFile path text = .ok u.tree → Q () u)
    (refusals : ∀ e u, Gives (refused e) u Q) (shorts : ∀ u, Gives short u Q) :
    Gives (writeFile path text refused short) w Q := by
  refine (Gives.run nextFault w).bind fun fault u ran => gives_tree ?_
  cases ran
  split
  · exact refusals _ _
  · next t comes =>
    have written := Fault.ok_of_outcome comes
    refine Gives.bind (Q := fun _ v => v.tree = t ∧ v.files.faults = w.files.met.faults)
      (Gives.modify ⟨rfl, rfl⟩) fun _ v ⟨here, left⟩ => ?_
    split
    · exact shorts v
    · next all =>
      rw [Fault.taken_eq (Bool.eq_false_iff.mpr all), ← here] at written
      exact Gives.pure (done v (left ▸ w.files.faults_met_subset) written)

end

/-! ## Where a step fails -/

/-- Where a step fails, the files satisfy `S`. -/
def Breaks (m : Work α) (w : Workspace) (S : FileTree → Prop) : Prop :=
  ∀ e u, m.run.run w = (.error e, u) → S u.tree

section

variable {w : Workspace} {S : FileTree → Prop}

theorem Returns.breaks (h : Returns m w) : Breaks m w S := by
  intro e u run
  obtain ⟨a, v, ran⟩ := h
  exact nomatch ran.symm.trans run

theorem Breaks.mono {S' : FileTree → Prop} (h : Breaks m w S) (more : ∀ t, S t → S' t) :
    Breaks m w S' :=
  fun e u run => more u.tree (h e u run)

theorem Breaks.bind {f : α → Work β} (first : Breaks m w S)
    (next : Gives m w fun a u => Breaks (f a) u S) : Breaks (m >>= f) w S := by
  intro e v run
  rw [run_bind] at run
  rcases ran : m.run.run w with ⟨e' | a, u⟩
  · rw [ran] at run
    cases run
    exact first _ _ ran
  · rw [ran] at run
    exact next a u ran e v run

theorem breaks_tree {f : FileTree → Work β} (next : Breaks (f w.tree) w S) :
    Breaks (tree >>= f) w S :=
  next

theorem breaks_fail (kind : FailureKind) (tag message : Bytes) (holds : S w.tree) :
    Breaks (fail kind tag message : Work α) w S := by
  intro e u run
  cases run
  exact holds

/-- A change fails where the tree or the disk refuses it. -/
theorem breaks_commit {result : Except FileError FileTree} {refused : FileError → Work Unit}
    (fails : ∀ e u, u.tree = w.tree → u.files.faults ⊆ w.files.faults →
      (result = .error e ∨ some (.refused e) ∈ w.files.faults) → Breaks (refused e) u S) :
    Breaks (commit result refused) w S := by
  refine Breaks.bind (Returns.breaks ⟨_, _, run_nextFault w⟩) fun fault u run => ?_
  cases run
  have left := w.files.faults_met_subset
  split
  · exact Returns.breaks (Returns.modify _ _)
  · next e comes =>
    refine fails e _ rfl left ?_
    rcases Fault.error_of_outcome comes with refused | here
    · exact Or.inr (w.files.mem_of_fault? refused)
    · exact Or.inl here

/-- A write fails where it is refused, and where the disk is full. -/
theorem breaks_writeFile {path text : Bytes} {refused : FileError → Work Unit} {short : Work Unit}
    (refusals : ∀ e u, u.tree = w.tree → Breaks (refused e) u S)
    (shorts : ∀ comes u, w.tree.writeFile path comes = .ok u.tree →
      u.files.faults ⊆ w.files.faults → Breaks short u S) :
    Breaks (writeFile path text refused short) w S := by
  refine Breaks.bind (Returns.breaks ⟨_, _, run_nextFault w⟩) fun fault u run => ?_
  cases run
  refine breaks_tree ?_
  split
  · exact refusals _ _ rfl
  · next t comes =>
    have written := Fault.ok_of_outcome comes
    refine Breaks.bind (Returns.breaks (Returns.modify _ _)) (Gives.modify ?_)
    split
    · exact shorts _ _ written w.files.faults_met_subset
    · exact Returns.breaks (Returns.pure _ _)

end

/-! ## What a step leaves -/

/-- Where a step ends, whether it fails or not, the files satisfy `S`. -/
def Leaves (m : Work α) (w : Workspace) (S : FileTree → Prop) : Prop := S (m.run.run w).2.tree

section

variable {w : Workspace} {S : FileTree → Prop} {f : α → Work β}

theorem Leaves.mono {S' : FileTree → Prop} (h : Leaves m w S) (more : ∀ t, S t → S' t) :
    Leaves m w S' :=
  more _ h

theorem leaves_iff : Leaves m w S ↔ Breaks m w S ∧ Gives m w fun _ u => S u.tree := by
  unfold Leaves Breaks Gives
  rcases m.run.run w with ⟨e | a, u⟩
  · refine ⟨fun h => ⟨fun _ _ run => ?_, fun _ _ run => nomatch run⟩, fun h => h.1 e u rfl⟩
    cases run
    exact h
  · refine ⟨fun h => ⟨fun _ _ run => (nomatch run), fun _ _ run => ?_⟩, fun h => h.2 a u rfl⟩
    cases run
    exact h

theorem Leaves.bind (fails : Breaks m w S) (next : Gives m w fun a u => Leaves (f a) u S) :
    Leaves (m >>= f) w S := by
  unfold Leaves
  rw [run_bind]
  rcases ran : m.run.run w with ⟨e | a, u⟩
  · exact fails e u ran
  · exact next a u ran

theorem Leaves.andThen (first : Leaves m w S) (next : ∀ a u, S u.tree → Leaves (f a) u S) :
    Leaves (m >>= f) w S := by
  obtain ⟨fails, ends⟩ := leaves_iff.mp first
  exact Leaves.bind fails (ends.mono next)

/-- A step that changes no text ends well where it fails, if what has grown satisfies `S`. -/
theorem Triple.leaves_bind (h : Triple w.files.faults FileTree.Grows P m Q) (start : P w.tree)
    (grown : ∀ u, FileTree.Grows w.tree u → S u)
    (next : ∀ a u, u.files.faults ⊆ w.files.faults → FileTree.Grows w.tree u.tree → Q a u.tree →
      Leaves (f a) u S) : Leaves (m >>= f) w S := by
  obtain ⟨left, allowed, ends⟩ := h w (List.Subset.refl _) start
  have grows := allowed.grows
  refine Leaves.bind (fun e u ran => ?_) fun a u ran => ?_
  · rw [ran] at grows
    exact grown _ grows
  · rw [ran] at left grows ends
    exact next a u left grows (ends a rfl)

theorem Leaves.breaks (h : Leaves m w S) : Breaks m w S := (leaves_iff.mp h).1

theorem leaves_commit {result : Except FileError FileTree} {refused : FileError → Work Unit}
    (done : ∀ t, result = .ok t → S t)
    (fails : ∀ e u, u.tree = w.tree → u.files.faults ⊆ w.files.faults →
      (result = .error e ∨ some (.refused e) ∈ w.files.faults) → Leaves (refused e) u S) :
    Leaves (commit result refused) w S := by
  refine Leaves.bind (Returns.breaks ⟨_, _, run_nextFault w⟩) fun fault u run => ?_
  cases run
  split
  · next t comes => exact done t (Fault.ok_of_outcome comes)
  · next e comes =>
    refine fails e _ rfl w.files.faults_met_subset ?_
    rcases Fault.error_of_outcome comes with refused | here
    · exact Or.inr (w.files.mem_of_fault? refused)
    · exact Or.inl here

theorem leaves_of_files (files : (m.run.run w).2.files = w.files) (holds : S w.tree) :
    Leaves m w S := by
  rwa [Leaves, Workspace.tree, files]

theorem leaves_tree {f : FileTree → Work β} (next : Leaves (f w.tree) w S) :
    Leaves (tree >>= f) w S :=
  next

end

/-! ## Steps that do not fail -/

section

variable {m : Work α} {w : Workspace} {f : FileTree → Work β}

theorem returns_tree (next : Returns (f w.tree) w) : Returns (tree >>= f) w := next

theorem returns_write (line : LogLine) (w : Workspace) : Returns (write line) w :=
  Returns.modify _ w

/-- Where the disk is sound, what the tree allows comes about. -/
theorem run_commit {result : Except FileError FileTree} {refused : FileError → Work Unit}
    {t : FileTree} (sound : w.files.Sound) (allowed : result = .ok t) :
    (commit result refused).run.run w = (.ok (), { w with files := w.files.met.push t }) := by
  unfold commit
  rw [run_bind, run_nextFault, sound.fault?, allowed]
  rfl

theorem run_writeFile {path text : Bytes} {refused : FileError → Work Unit} {short : Work Unit}
    {t : FileTree} (sound : w.files.Sound) (allowed : w.tree.writeFile path text = .ok t) :
    (writeFile path text refused short).run.run w =
      (.ok (), { w with files := w.files.met.push t }) := by
  have now : tree.run.run { w with files := w.files.met } =
      (.ok w.tree, { w with files := w.files.met }) := rfl
  unfold writeFile
  rw [run_bind, run_nextFault, sound.fault?]
  dsimp only
  rw [run_bind, now]
  dsimp only
  have comes : Fault.outcome none (w.tree.writeFile path (Fault.taken none text)) = .ok t := allowed
  rw [comes]
  rfl

theorem run_makeFolders {path : Bytes} {refused : FileError → Work Unit} {t : FileTree}
    (made : w.tree.makeFolders path = (none, t)) :
    (makeFolders path refused).run.run w = (.ok (), { w with files := w.files.push t }) := by
  have now : tree.run.run w = (.ok w.tree, w) := rfl
  unfold makeFolders
  rw [run_bind, now]
  dsimp only
  rw [made]
  rfl

end

end Work

end HeaderForge
