import HeaderForge.Proofs.Build.Traversal
import HeaderForge.Proofs.Build.Visits
/-!
# Flattening is a traversal

Flattening goes on at a named schema if it is neither open nor has contributed. Every open name but
the one that is flattened has contributed, so the two guards together are one set of visited names.

1. `Build.Reads` are the calls of the reader of fragments, one after the other.
2. `Build.Walks` says that a walk is a traversal, with what it reads and notes on the way.
   `Visits.walks` proves it for every walk that returns.
3. `Build.flatten_traverses` is the result for a whole schema.
-/

namespace HeaderForge

namespace Build

open Meeting

/-! ## Calls of a reader -/

/-- States that differ in no more than the findings, the log and the names that are open. -/
structure Quiet (s t : BuildState) : Prop where
  dependencies : t.dependencies = s.dependencies
  inlineEnums : t.inlineEnums = s.inlineEnums
  registry : t.registry = s.registry

theorem Quiet.refl (s : BuildState) : Quiet s s := ⟨rfl, rfl, rfl⟩

theorem Silent.quiet {s t : BuildState} (h : Silent s t) : Quiet s t :=
  ⟨h.dependencies, h.inlineEnums, h.registry⟩

theorem Quiet.trans {s t u : BuildState} (h : Quiet s t) (h' : Quiet t u) : Quiet s u :=
  ⟨h'.dependencies.trans h.dependencies, h'.inlineEnums.trans h.inlineEnums,
    h'.registry.trans h.registry⟩

theorem Quiet.of_open {s t : BuildState} {names : List Bytes}
    (h : Quiet { s with stack := names } t) : Quiet s t :=
  ⟨h.dependencies, h.inlineEnums, h.registry⟩

theorem Quiet.close {s t : BuildState} (h : Quiet s t) (name : Bytes) : Quiet s (closing name t) :=
  ⟨h.dependencies, h.inlineEnums, h.registry⟩

/-- The reader is called for the fragments in turn and returns these lists of fields. Nothing but
its calls changes more than the findings, the log and the open names. -/
inductive Reads (read : Fragment → Build (List Field)) :
    BuildState → List Fragment → List (List Field) → BuildState → Prop
  | done {s t : BuildState} : Quiet s t → Reads read s [] [] t
  | call {s t u v : BuildState} {fragment : Fragment} {fields : List Field}
      {others : List Fragment} {later : List (List Field)} :
      Quiet s t → exec (read fragment) t = (.ok fields, u) → Reads read u others later v →
      Reads read s (fragment :: others) (fields :: later) v

namespace Reads

variable {read : Fragment → Build (List Field)} {s t u : BuildState} {fs gs : List Fragment}
  {outs outs' : List (List Field)}

theorem after (quiet : Quiet s t) (h : Reads read t fs outs u) : Reads read s fs outs u := by
  cases h with
  | done quiet' => exact .done (quiet.trans quiet')
  | call quiet' run others => exact .call (quiet.trans quiet') run others

theorem append (h : Reads read s fs outs t) (h' : Reads read t gs outs' u) :
    Reads read s (fs ++ gs) (outs ++ outs') u := by
  induction h with
  | done quiet => exact h'.after quiet
  | call quiet run _ ih => exact .call quiet run (ih h')

theorem close (h : Reads read s fs outs t) (name : Bytes) :
    Reads read s fs outs (closing name t) := by
  simpa using h.append (.done ((Quiet.refl t).close name))

end Reads

/-! ## Walks -/

/-- A walk from a state is a traversal of the parts: it calls the reader for the fragments that are
met and merges what that returns, notes the meetings, and remembers the names that it expands. It
leaves no name open. -/
def Walks (index : Index) (read : Fragment → Build (List Field)) (root : Bytes)
    (ps : List (Site × Schema)) (s : BuildState) (st : Flattening) (found : Flattening)
    (t : BuildState) : Prop :=
  ∃ meetings outs, index.Traverses s.stack.reverse (st.contributed ++ [root]) ps meetings ∧
    Reads read s (fragments meetings) outs t ∧ t.stack = s.stack ∧
    found.fields = outs.foldl Field.merge st.fields ∧
    found.composedFrom = meetings.foldl note st.composedFrom ∧
    found.contributed = (firsts meetings).reverse ++ st.contributed

/-- The parts that a task goes through. Members are numbered from `k` on. -/
def Task.placed (schemaName : Bytes) (path : List Nat) (k : Nat) : Task → List (Site × Schema)
  | .schema s => (s.parts path).map (place schemaName)
  | .members ms => (Schema.partsOfMembers path k ms).map (place schemaName)

/-- The name that is flattened is open, and whatever else is open has contributed. -/
structure Under (root : Bytes) (s : BuildState) (st : Flattening) : Prop where
  root_mem : root ∈ s.stack
  contributed : ∀ name, name ∈ s.stack → name = root ∨ name ∈ st.contributed

namespace Under

variable {root : Bytes} {s t : BuildState} {st : Flattening}

theorem of_stack (under : Under root s st) (same : t.stack = s.stack) : Under root t st :=
  ⟨same ▸ under.root_mem, fun name isOpen => under.contributed name (same ▸ isOpen)⟩

theorem visited (under : Under root s st) {name : Bytes} (isOpen : name ∈ s.stack) :
    name ∈ st.contributed ++ [root] := by
  rcases under.contributed name isOpen with rfl | before
  · simp
  · simp [before]

/-- A name that is met for the first time is open while the walk goes through its own schema. -/
theorem expand (under : Under root s st) (name : Bytes) :
    Under root (opening name s) (noteExpanded name st) := by
  refine ⟨by simp [under.root_mem], fun other isOpen => ?_⟩
  rcases List.mem_append.mp isOpen with before | itself
  · exact (under.contributed other before).imp_right (List.mem_cons_of_mem _)
  · rw [List.mem_singleton.mp itself]
    exact .inr List.mem_cons_self

end Under

section

variable {index : Index} {owner root : Bytes} {read : Fragment → Build (List Field)}

theorem Walks.under {ps : List (Site × Schema)} {s t : BuildState} {st found : Flattening}
    (h : Walks index read root ps s st found t) (under : Under root s st) : Under root t found := by
  obtain ⟨ms, outs, -, -, stack, -, -, contributed⟩ := h
  refine ⟨stack ▸ under.root_mem, fun name isOpen => ?_⟩
  rw [stack] at isOpen
  rw [contributed]
  exact (under.contributed name isOpen).imp_right (List.mem_append_right _)

/-- A walk may start after a silent change. -/
theorem Walks.after {ps : List (Site × Schema)} {s t u : BuildState} {st found : Flattening}
    (silent : Silent s t) (h : Walks index read root ps t st found u) :
    Walks index read root ps s st found u := by
  obtain ⟨ms, outs, way, reads, stack, results⟩ := h
  rw [silent.stack] at way stack
  exact ⟨ms, outs, way, reads.after silent.quiet, stack, results⟩

theorem Walks.append {ps qs : List (Site × Schema)} {s t u : BuildState}
    {st st' found : Flattening} (h : Walks index read root ps s st st' t)
    (h' : Walks index read root qs t st' found u) :
    Walks index read root (ps ++ qs) s st found u := by
  obtain ⟨ms, outs, way, reads, stack, fields, noted, contributed⟩ := h
  obtain ⟨ms', outs', way', reads', stack', fields', noted', contributed'⟩ := h'
  rw [stack, contributed, List.append_assoc] at way'
  refine ⟨ms ++ ms', outs ++ outs', way.append way', ?_, stack'.trans stack, ?_, ?_, ?_⟩
  · rw [fragments_append]
    exact reads.append reads'
  · rw [fields', fields, List.foldl_append]
  · rw [noted', noted, List.foldl_append]
  · rw [contributed', contributed, firsts_append, List.reverse_append, List.append_assoc]

/-- A part that adds nothing is passed over. -/
theorem walks_nothing {site : Site} {part : Schema} (noFragment : part.fragment? = none)
    (noToken : part.token? = none) {s t : BuildState} (silent : Silent s t) (st : Flattening) :
    Walks index read root [(site, part)] s st st t :=
  ⟨[], [], .nothing noFragment noToken .done,
    .done silent.quiet, silent.stack, rfl, rfl, rfl⟩

theorem noteReused_eq (name : Bytes) (st : Flattening) : noteReused name st =
    { st with composedFrom := (note st.composedFrom (.again name true)) } := by
  simp only [noteReused, note]
  split <;> rfl

/-- A name that is open or has contributed is met again. -/
theorem walks_again {site : Site} {part : Schema} {token : Bytes} {target : NamedSchema}
    (isToken : part.token? = some token) (resolved : index.resolve? token = some target)
    {s t : BuildState} {st : Flattening} (seen : target.name ∈ st.contributed ++ [root])
    (quiet : Quiet s t) (stack : t.stack = s.stack) {isOpen : Bool}
    (flag : decide (target.name ∈ s.stack.reverse) = isOpen) :
    Walks index read root [(site, part)] s st
      { st with composedFrom := (note st.composedFrom (.again target.name isOpen)) } t := by
  subst flag
  exact ⟨_, [], .again isToken resolved seen .done, .done quiet, stack, rfl, rfl, rfl⟩

/-- A name that is met for the first time is expanded. -/
theorem Walks.first {site : Site} {part : Schema} {token : Bytes} {target : NamedSchema}
    (isToken : part.token? = some token) (resolved : index.resolve? token = some target)
    {s u : BuildState} {st found : Flattening} (under : Under root s st)
    (closed : target.name ∉ s.stack) (new : target.name ∉ st.contributed)
    (inside : Walks index read root target.placed (opening target.name s)
      (noteExpanded target.name st) found u) :
    Walks index read root [(site, part)] s st found (closing target.name u) := by
  obtain ⟨inner, outs, way, reads, stack, fields, noted, contributed⟩ := inside
  have fresh : target.name ∉ st.contributed ++ [root] := by
    rw [List.mem_append, List.mem_singleton]
    rintro (before | rfl)
    · exact new before
    · exact closed under.root_mem
  rw [stack_opening, List.reverse_append] at way
  have here : index.Traverses s.stack.reverse (st.contributed ++ [root]) [(site, part)] _ :=
    .first isToken resolved fresh way .done
  rw [List.append_nil] at here
  have opened : Quiet s (opening target.name s) := ⟨rfl, rfl, rfl⟩
  refine ⟨_, outs, here, (reads.after opened).close target.name,
    stack_closing_of_opening closed stack, fields, noted, ?_⟩
  rw [contributed]
  simp [noteExpanded]

section

variable (closes : ∀ fragment s, (exec (read fragment) s).2.stack = s.stack)
include closes

/-- A walk that returns is a traversal of the parts of its task. -/
theorem Visits.walks {task : Task} {st : Flattening} {s : BuildState} {passed : List BuildState}
    {ending : Ending} (h : Visits index owner read task st s passed ending) :
    ∀ found t, ending = (.ok found, t) → Under root s st → ∀ schemaName path k,
      Walks index read root (task.placed schemaName path k) s st found t := by
  induction h with
  | missing | unread | stop => exact fun _ _ same => nomatch same
  | reused resolved isOpen logged =>
    intro found t same under schemaName path k
    cases same
    have silent := silent_of_logged logged
    rw [noteReused_eq]
    exact walks_again rfl resolved (under.visited isOpen) silent.quiet silent.stack
      (decide_eq_true (List.mem_reverse.mpr isOpen))
  | @known _ _ target _ _ _ resolved closed before logged =>
    intro found t same under schemaName path k
    cases same
    have silent := silent_of_logged logged
    exact walks_again rfl resolved (List.mem_append_left _ before)
      (silent.quiet.of_open.close target.name) (stack_closing_of_opening closed silent.stack)
      (decide_eq_false fun isOpen => closed (List.mem_reverse.mp isOpen))
  | @expanded _ _ target _ _ _ _ _ _ resolved closed new logged _ ih =>
    intro found t same under schemaName path k
    cases same
    have silent := silent_of_logged logged
    have inside := ih _ _ rfl ((under.expand target.name).of_stack silent.stack) target.name [] 0
    exact Walks.first rfl resolved under closed new (inside.after silent)
  | read run logged =>
    intro found t same under schemaName path k
    cases same
    have silent := silent_of_logged logged
    exact ⟨[.fragment ⟨schemaName, path⟩ _], [_], .fragment rfl .done,
      .call (Quiet.refl _) run (.done silent.quiet),
      silent.stack.trans (stack_of_read closes run), rfl, rfl, rfl⟩
  | @fieldless schema _ s t kind reported =>
    intro found _ same under schemaName path k
    cases same
    have silent : Silent s t := reported ▸ ⟨⟨rfl, rfl, rfl⟩, rfl⟩
    cases schema with
    | reference | object | allOf => exact nomatch kind
    | primitive | enumeration | array | union => exact walks_nothing rfl rfl silent _
  | untyped =>
    intro found t same under schemaName path k
    cases same
    exact walks_nothing rfl rfl (Silent.refl _) _
  | allOf _ ih =>
    intro found t same under schemaName path k
    exact ih found t same under schemaName path 0
  | none =>
    intro found t same under schemaName path k
    cases same
    exact ⟨[], [], .done, .done (Quiet.refl _), rfl, rfl, rfl, rfl⟩
  | next _ _ ih ihLater =>
    intro found t same under schemaName path k
    have walked := ih _ _ rfl under schemaName (path ++ [k]) 0
    have later := ihLater found t same (walked.under under) schemaName path (k + 1)
    show Walks index read root ((Schema.partsOfMembers path k _).map (place schemaName)) _ _ _ _
    rw [Schema.partsOfMembers, List.map_append]
    exact walked.append later

/-- A schema that is flattened while it alone is open is traversed with no other name visited. -/
theorem gives_flatten_alone {s : NamedSchema} {st : BuildState} (alone : st.stack = [s.name]) :
    Gives (flatten index s.schema owner read) st fun found after =>
      ∃ meetings outs, index.Traverses [s.name] [s.name] s.placed meetings ∧
        Reads read st (fragments meetings) outs after ∧
        found.fields = outs.foldl Field.merge [] ∧ found.composedFrom = meetings.foldl note [] := by
  have under : Under s.name st ⟨[], [], []⟩ :=
    ⟨by simp [alone], fun name isOpen => .inl (by simpa [alone] using isOpen)⟩
  intro found after (run : exec (flatten index s.schema owner read) st = (.ok found, after))
  obtain ⟨passed, walk⟩ := @visits_flatten index owner read s.schema st
  rw [run] at walk
  have silent := silent_announced owner s.schema st
  obtain ⟨meetings, outs, way, reads, -, fields, composedFrom, -⟩ :=
    (walk.walks closes found after rfl (under.of_stack silent.stack) s.name [] 0).after silent
  rw [alone, List.reverse_singleton, List.nil_append] at way
  exact ⟨meetings, outs, way, reads, fields, composedFrom⟩

end

end

/-! ## The result -/

/-- What a flattening found, told by the meetings of the traversal of a schema and by the lists of
fields that the reader returned on the way. -/
structure Flattened (index : Index) (s : NamedSchema) (found : Flattening)
    (meetings : List Meeting) (outs : List (List Field)) : Prop where
  /-- These are the meetings of the one traversal that starts with no other name visited. -/
  traversal : ∀ other, index.Traverses [s.name] [s.name] s.placed other ↔ other = meetings
  fields : found.fields = outs.foldl Field.merge []
  composedFrom : found.composedFrom = meetings.foldl note []
  expanded : expanded found.composedFrom = firsts meetings
  /-- No name is noted twice. -/
  once : (found.composedFrom.map Ancestor.schemaName).Nodup
  /-- A name that is noted as reused was met again while it was open. -/
  reused : ∀ a, a ∈ found.composedFrom → a.reused = true →
    a.schemaName = s.name ∧ .again s.name true ∈ meetings
  /-- No object is met twice. -/
  apart : (sites meetings).Nodup

/-- A schema that is flattened while it alone is open is traversed from left to right, and each
named schema is expanded where it is met first. The reader is called for the objects that are met
and for nothing else. It may do anything but leave other names open than it found. -/
theorem flatten_traverses {index : Index} {s : NamedSchema} {owner : Bytes}
    {read : Fragment → Build (List Field)}
    (closes : ∀ fragment st, (exec (read fragment) st).2.stack = st.stack)
    {st after : BuildState} (alone : st.stack = [s.name]) {found : Flattening}
    (run : exec (flatten index s.schema owner read) st = (.ok found, after)) :
    ∃ meetings outs, Flattened index s found meetings outs ∧
      Reads read st (fragments meetings) outs after := by
  obtain ⟨meetings, outs, way, reads, fields, composedFrom⟩ :=
    gives_flatten_alone closes alone found after run
  have start : Index.Noted s.name meetings [s.name] [s.name] [] :=
    ⟨List.nodup_nil, by simp, fun name isOpen => .inl (by simpa using isOpen), by simp⟩
  have noted := start.traverse way (List.Subset.refl meetings)
  rw [← composedFrom] at noted
  obtain ⟨placedApart, placedIn⟩ := s.placed_nodup
  refine ⟨meetings, outs, ⟨fun other => ⟨way.unique, ?_⟩, fields, composedFrom, ?_, noted.once,
    noted.reused, way.sites_nodup placedApart fun p placed => ?_⟩, reads⟩
  · rintro rfl
    exact way
  · rw [composedFrom, expanded_foldl_note]
    rfl
  · rw [placedIn p placed]
    exact List.mem_singleton_self s.name

/-! ## A diamond and a cycle -/

def exInfo : SchemaInfo := ⟨.any, [], [], [], false, false, false, .obj []⟩

def exLink (name : Bytes) : Schema := .reference exInfo name

def exObject (key : Bytes) : Schema := .object exInfo [(key, .primitive exInfo)] [] .closed

/-- Two members lead to the same root, which leads back to the schema that they are members of. -/
def exBoth : NamedSchema where
  name := bytes "Both"
  schema := .allOf exInfo [exLink (bytes "Left"), exLink (bytes "Right"), exObject (bytes "own")]

def exDiamond : Index where
  dialect := .openapi3
  version := bytes "3"
  named := [exBoth,
    ⟨bytes "Left", .allOf exInfo [exLink (bytes "Root"), exObject (bytes "left")]⟩,
    ⟨bytes "Right", .allOf exInfo [exLink (bytes "Root"), exObject (bytes "right")]⟩,
    ⟨bytes "Root", .allOf exInfo [exLink (bytes "Both"), exObject (bytes "id")]⟩]

/-- A reader of keys alone. -/
def exRead (fragment : Fragment) : Build (List Field) :=
  return fragment.properties.map fun (key, _) => ⟨key, key, .any, false, false, false, [], []⟩

def exOpened : BuildState := { start with stack := [exBoth.name] }

/-- The keys of the fields that are found, and the names that are noted. -/
def exSummary (found : Flattening) : List Bytes × List (Bytes × Bool) :=
  (found.fields.map Field.key, found.composedFrom.map fun a => (a.schemaName, a.reused))

theorem flatten_traverses_exDiamond :
    ∃ found after,
      exec (flatten exDiamond exBoth.schema exBoth.name exRead) exOpened = (.ok found, after) ∧
      exSummary found = ([bytes "id", bytes "left", bytes "right", bytes "own"],
        [(bytes "Left", false), (bytes "Root", false), (bytes "Both", true),
          (bytes "Right", false)]) ∧
      ∃ meetings outs, Flattened exDiamond exBoth found meetings outs ∧
        Reads exRead exOpened (fragments meetings) outs after := by
  have facts : (exec (flatten exDiamond exBoth.schema exBoth.name exRead) exOpened).1.toOption.map
      exSummary =
        some ([bytes "id", bytes "left", bytes "right", bytes "own"],
          [(bytes "Left", false), (bytes "Root", false), (bytes "Both", true),
            (bytes "Right", false)]) := by
    decide +kernel
  obtain ⟨found, after, run, told⟩ := ok_of_exec_map facts
  exact ⟨found, after, run, told, flatten_traverses (fun _ _ => rfl) rfl run⟩

end Build

end HeaderForge
