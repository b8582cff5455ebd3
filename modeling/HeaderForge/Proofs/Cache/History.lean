import HeaderForge.Proofs.Cache.Staying
import Mathlib.Data.List.Induction
/-!
# A record over a history

Between loading and saving, a cache notes hashes and drops names. `Edited` is what has become of it
after any number of such edits: it still answers from the record that was loaded, and for the next
run it has the last edit of each name, and what was loaded where a name has none. One edit carries
this on (`Edited.step`), so it holds after any history (`edited_of_history`).

1. `loads_history`: a cache that was loaded, edited and saved is found again by a cache of the same
   style, and by no cache of another one.
-/

namespace HeaderForge

open Work

namespace Cache

/-! ## Edits -/

/-- What a run notes about the file of a schema. -/
inductive Edit where
  | commit (name hash : Bytes)
  | drop (name : Bytes)
deriving DecidableEq, Repr

namespace Edit

def name : Edit → Bytes
  | commit name _ => name
  | drop name => name

/-- The hash that an edit leaves for its name. -/
def left : Edit → Option Bytes
  | commit _ hash => some hash
  | drop _ => none

/-- An edit that notes a hash notes one that is not empty. -/
def IsProper (e : Edit) : Prop := e.left ≠ some []

instance : DecidablePred IsProper := fun e => inferInstanceAs (Decidable (e.left ≠ some []))

end Edit

def edit (c : Cache) : Edit → Cache
  | .commit name hash => c.commit name hash
  | .drop name => c.drop name

/-- The cache after some edits, the first of them first. -/
def edited (c : Cache) (edits : List Edit) : Cache := edits.foldl edit c

/-- What some edits make of the hash of a name: what the last edit of the name left. -/
def updated (hashes : List (Bytes × Bytes)) (edits : List Edit) (name : Bytes) : Option Bytes :=
  match edits.reverse.find? fun e => e.name = name with
  | some e => e.left
  | none => hashes.lookup name

theorem updated_append (hashes : List (Bytes × Bytes)) (edits : List Edit) (e : Edit)
    (name : Bytes) : updated hashes (edits ++ [e]) name =
      if name = e.name then e.left else updated hashes edits name := by
  unfold updated
  rw [List.reverse_append, List.reverse_singleton, List.singleton_append, List.find?_cons]
  by_cases own : name = e.name
  · simp [own]
  · simp [own, Ne.symm own]

variable {c loaded d : Cache} {w : Workspace} {edits : List Edit}

/-- What has become of a cache after some edits. -/
structure Edited (loaded : Cache) (edits : List Edit) (d : Cache) : Prop where
  same : SameRecord loaded d
  forced : d.forced = loaded.forced
  wellFormed : CacheRecord.WellFormed ⟨d.style, d.pending⟩
  pending : ∀ name, d.pendingHash name = updated loaded.pending edits name

theorem lookup_edit (c : Cache) (e : Edit) (name : Bytes) :
    (c.edit e).pendingHash name = if name = e.name then e.left else c.pendingHash name := by
  cases e with
  | commit other hash => exact lookup_putSorted other hash c.pending name
  | drop other => exact lookup_filter other c.pending name

theorem wellFormed_edit {style : Bytes} (wf : CacheRecord.WellFormed ⟨style, c.pending⟩) {e : Edit}
    (proper : e.IsProper) : CacheRecord.WellFormed ⟨style, (c.edit e).pending⟩ := by
  cases e with
  | commit name hash =>
    refine ⟨wf.order.put name hash, fun entry member => ?_⟩
    rcases mem_of_mem_putSorted member with rfl | member
    · exact fun empty => proper (congrArg some empty)
    · exact wf.proper entry member
  | drop name =>
    exact ⟨wf.order.filter _, fun entry member => wf.proper entry (List.mem_of_mem_filter member)⟩

/-- One more edit. -/
theorem Edited.step (h : Edited loaded edits d) {e : Edit} (proper : e.IsProper) :
    Edited loaded (edits ++ [e]) (d.edit e) := by
  have kept : SameRecord d (d.edit e) ∧ (d.edit e).forced = d.forced := by
    cases e <;> exact ⟨⟨rfl, rfl, rfl⟩, rfl⟩
  refine ⟨h.same.trans kept.1, kept.2.trans h.forced, ?_, fun name => ?_⟩
  · rw [kept.1.style]
    exact wellFormed_edit h.wellFormed proper
  · rw [lookup_edit, updated_append, h.pending]

theorem edited_of_history (wf : CacheRecord.WellFormed ⟨loaded.style, loaded.pending⟩)
    (proper : ∀ e, e ∈ edits → e.IsProper) : Edited loaded edits (loaded.edited edits) := by
  induction edits using List.reverseRecOn with
  | nil => exact ⟨⟨rfl, rfl, rfl⟩, rfl, wf, fun _ => rfl⟩
  | append_singleton earlier e ih =>
    unfold edited at ih ⊢
    rw [List.foldl_append]
    exact (ih fun e member => proper e (List.mem_append_left _ member)).step
      (proper e (List.mem_append_right _ (List.mem_singleton_self e)))

/-! ## Answers -/

/-- A cache answers from these hashes, whatever it has noted since. -/
structure AnswersFrom (hashes : List (Bytes × Bytes)) (forced : Bool) (d : Cache) : Prop where
  stale : ∀ name hash w, ∃ u, (d.isStale name hash).run.run w =
    (.ok (forced || hashes.lookup name != some hash), u) ∧ u.files = w.files
  previousHash : ∀ name, d.previousHash name = hashes.lookup name
  removed : ∀ current, d.removed current =
    (hashes.map Prod.fst).filter fun name => name ∉ current

/-- A cache that is asked whether a file is out of date logs its answer at most. -/
theorem run_isStale (d : Cache) (name hash : Bytes) (w : Workspace) :
    ∃ u, (d.isStale name hash).run.run w =
      (.ok (d.forced || d.previous.lookup name != some hash), u) ∧ u.files = w.files := by
  have logged (message : Bytes) (answer : Bool) : ∃ u : Workspace,
      (detail tag message >>= fun _ => pure answer : Work Bool).run.run w = (.ok answer, u) ∧
        u.files = w.files := ⟨_, rfl, rfl⟩
  unfold isStale
  cases forced : d.forced with
  | true => exact ⟨w, rfl, rfl⟩
  | false =>
    rw [if_neg Bool.false_ne_true, Bool.false_or]
    cases d.previous.lookup name with
    | none => exact logged _ true
    | some known =>
      dsimp only
      split
      · next same =>
        rw [show (some known != some hash) = false by simp [same]]
        exact logged _ false
      · next differs =>
        rw [show (some known != some hash) = true by simp [differs]]
        exact logged _ true

theorem answersFrom (d : Cache) : AnswersFrom d.previous d.forced d :=
  ⟨run_isStale d, fun _ => rfl, fun _ => rfl⟩

/-! ## Loading -/

/-- The record of a cache can be read, or is not there. -/
def Loadable (file : Bytes) (t : FileTree) : Prop :=
  match t.read file with
  | .ok _ => True
  | .error e => e.meansAbsent = true

theorem loadable_of_textOf? {file text : Bytes} {t : FileTree} (h : t.textOf? file = some text) :
    Loadable file t := by
  rw [Loadable, FileTree.read_of_textOf? h]
  trivial

theorem returns_load (loadable : Loadable c.file w.tree) : Returns c.load w := by
  unfold Loadable at loadable
  unfold load
  refine returns_tree ?_
  cases read : w.tree.read c.file with
  | ok text =>
    dsimp only
    cases CacheRecord.read text with
    | none => exact (returns_write _ w).andThen fun _ u => Returns.pure _ u
    | some record =>
      dsimp only
      unfold withRecord
      split
      · exact (returns_write _ w).andThen fun _ u => Returns.pure _ u
      · exact (returns_write _ w).andThen fun _ u => Returns.pure _ u
  | error e =>
    rw [read] at loadable
    dsimp only at loadable ⊢
    rw [if_pos loadable]
    exact (returns_write _ w).andThen fun _ u => Returns.pure _ u

/-- Loading only logs. -/
theorem files_load (c : Cache) (w : Workspace) : (c.load.run.run w).2.files = w.files := by
  have logged : ∀ (line : LogLine) (d : Cache),
      ((do Work.write line; return d : Work Cache).run.run w).2.files = w.files := fun _ _ => rfl
  have asked : tree.run.run w = (.ok w.tree, w) := rfl
  unfold load
  rw [run_bind, asked]
  dsimp only
  cases w.tree.read c.file with
  | ok text =>
    dsimp only
    cases CacheRecord.read text with
    | none => exact logged _ _
    | some record =>
      dsimp only
      unfold withRecord
      split
      · exact logged _ _
      · exact logged _ _
  | error e =>
    dsimp only
    split
    · exact logged _ _
    · rfl

/-- A cache that can be loaded goes on from what is on record, and no file changes. -/
theorem loads (loadable : Loadable c.file w.tree) :
    ∃ loaded v, c.load.run.run w = (.ok loaded, v) ∧ v.files = w.files ∧
      c.LoadedFrom (c.onRecord w.tree) loaded := by
  obtain ⟨loaded, v, run⟩ := returns_load loadable
  have same := files_load c w
  rw [run] at same
  have load := triple_load (F := w.files.faults) (R := fun _ _ => False) c w.tree
  exact ⟨loaded, v, run, same, load.gives rfl loaded v run⟩

/-! ## The result -/

/-- A cache has exactly these hashes on record, for its answers and for the next run. -/
structure Holds (hashes : Bytes → Option Bytes) (c : Cache) : Prop where
  order : KeysInOrder c.previous
  previous : ∀ name, c.previousHash name = hashes name
  pending : c.pending = c.previous

/-- What another cache finds where an edited one was saved. -/
theorem loads_saved {x : Workspace} (wf : CacheRecord.WellFormed ⟨d.style, d.pending⟩)
    (saved : x.tree.textOf? d.file = some (CacheRecord.text ⟨d.style, d.pending⟩)) {fresh : Cache}
    (file : fresh.file = d.file) :
    ∃ again y, fresh.load.run.run x = (.ok again, y) ∧
      again.previous = (if fresh.style = d.style then d.pending else []) ∧
      again.pending = (if fresh.style = d.style then d.pending else []) := by
  obtain ⟨again, y, run, -, from_⟩ := loads (c := fresh) (loadable_of_textOf? (file ▸ saved))
  have onRecord : fresh.onRecord x.tree = if fresh.style = d.style then d.pending else [] := by
    rw [onRecord, file, FileTree.read_of_textOf? saved]
    dsimp only
    rw [CacheRecord.read_text wf]
    exact if_congr eq_comm rfl rfl
  exact ⟨again, y, run, from_.previous.trans onRecord, from_.pending.trans onRecord⟩

/-- A cache goes on from what is on record, and all through a history of edits it answers from that.
Where it is saved after them, which it is unless something is in the way, a cache of the same style
goes on from the same hashes but for the last edit of each name, and one of another style from
none. -/
theorem loads_history (loadable : Loadable c.file w.tree)
    (proper : ∀ e, e ∈ edits → e.IsProper) :
    ∃ loaded v, c.load.run.run w = (.ok loaded, v) ∧ v.files = w.files ∧
      loaded.previous = c.onRecord w.tree ∧ loaded.pending = c.onRecord w.tree ∧
      (∀ before, before <+: edits →
        (loaded.edited before).AnswersFrom (c.onRecord w.tree) c.forced) ∧
      ∀ x, (Savable c.file x.tree → x.files.Sound → Returns (loaded.edited edits).save x) ∧
        Gives (loaded.edited edits).save x fun _ y => ∀ fresh : Cache, fresh.file = c.file →
          ∃ again z, fresh.load.run.run y = (.ok again, z) ∧
            (fresh.style = c.style → again.Holds (updated (c.onRecord w.tree) edits)) ∧
            (fresh.style ≠ c.style → again.previous = [] ∧ again.pending = []) := by
  obtain ⟨loaded, v, run, same, from_⟩ := loads loadable
  have wf : CacheRecord.WellFormed ⟨loaded.style, loaded.pending⟩ := by
    rw [from_.style, from_.pending]
    exact wellFormed_onRecord c w.tree
  have edited := edited_of_history wf proper
  have file : (loaded.edited edits).file = c.file := edited.same.file.trans from_.file
  have style : (loaded.edited edits).style = c.style := edited.same.style.trans from_.style
  refine ⟨loaded, v, run, same, from_.previous, from_.pending, fun before stage => ?_,
    fun x => ⟨?_, ?_⟩⟩
  · have stage := edited_of_history wf fun e member => proper e (stage.subset member)
    rw [← from_.previous, ← stage.same.previous, ← from_.forced, ← stage.forced]
    exact answersFrom _
  · intro able sound
    exact returns_save (file ▸ able) sound
  · refine (gives_save _ x).mono fun _ y saved fresh there => ?_
    obtain ⟨again, z, run, previous, pending⟩ :=
      loads_saved edited.wellFormed saved (there.trans file.symm)
    refine ⟨again, z, run, fun own => ?_, fun other => ?_⟩
    · rw [if_pos (own.trans style.symm)] at previous pending
      have held := from_.pending ▸ edited.pending
      refine ⟨?_, fun name => ?_, pending.trans previous.symm⟩
      · rw [previous]
        exact edited.wellFormed.order
      · rw [previousHash, previous]
        exact held name
    · rw [style, if_neg other] at previous pending
      exact ⟨previous, pending⟩

def exHashes : List (Bytes × Bytes) := [("Owner", "1"), ("Pet", "2")]

/-- A folder with nothing but a record in it. -/
def exKept : Workspace :=
  ⟨(⟨[], [(fileName, .file (CacheRecord.text ⟨"plain", exHashes⟩))]⟩ : FileTree), Log.empty⟩

def exEdits : List Edit :=
  [.commit "Pet" "3", .drop "Owner", .commit "Visit" "4", .commit "Pet" "5"]

theorem savable_exKept : Savable fileName exKept.tree where
  parent some := absurd (by decide) some
  beside := ⟨[fileName ++ bytes ".tmp"], rfl, FileTree.not_isFolder_of_none rfl⟩
  record := ⟨[fileName], rfl, FileTree.not_isFolder_of_file rfl⟩
  proper := ⟨by decide, by decide⟩

theorem loads_history_exPets : Loadable fileName exKept.tree ∧ (∀ e, e ∈ exEdits → e.IsProper) ∧
    ∃ loaded v y again z, (new fileName "plain").load.run.run exKept = (.ok loaded, v) ∧
      (loaded.edited exEdits).previousHash "Owner" = some "1" ∧
      (loaded.edited exEdits).removed ["Pet"] = ["Owner"] ∧
      (loaded.edited exEdits).save.run.run v = (.ok (), y) ∧
      (new fileName "plain").load.run.run y = (.ok again, z) ∧
      again.previousHash "Owner" = none ∧ again.previousHash "Pet" = some "5" ∧
      again.previousHash "Visit" = some "4" := by
  have loadable : Loadable (new fileName "plain").file exKept.tree := trivial
  have proper : ∀ e, e ∈ exEdits → e.IsProper := by decide
  have order : (exHashes.map Prod.fst).Pairwise (· < ·) := by decide
  have onRecord : (new fileName "plain").onRecord exKept.tree = exHashes :=
    onRecord_of_saved ⟨order, by decide⟩ rfl
  obtain ⟨loaded, v, run, same, -, -, answers, saves⟩ := loads_history loadable proper
  obtain ⟨able, finds⟩ := saves v
  have sound : exKept.files.Sound := List.forall_mem_nil _
  rw [Workspace.tree, same] at able
  obtain ⟨⟨⟩, y, saved⟩ := able savable_exKept sound
  obtain ⟨again, z, found, holds, -⟩ := finds () y saved (new fileName "plain") rfl
  have answers := answers exEdits (List.prefix_refl _)
  have holds := (holds rfl).previous
  rw [onRecord] at answers holds
  exact ⟨loadable, proper, loaded, v, y, again, z, run, answers.previousHash _, answers.removed _,
    saved, found, holds _, holds _, holds _⟩

end Cache

end HeaderForge
