import HeaderForge.Config
import Mathlib.Data.List.Basic
/-!
# The grammar of namespaces

The check of a namespace looks for the next two colons, decides about what stands before them, and
goes on after them. A cut is made at the first two colons of a run, whatever follows, so that a
longer run leaves a piece that starts with a colon. What is accepted are therefore names with
exactly two colons between each two, and the empty text.

1. `Cut` is where the next two colons are found, and `Checks` is the check as a loop that makes one
   cut after the other. `Pieces.loops` and `Loops.unique`: it comes to one end.
2. `Segment` is the grammar of a name. `isNamespace_iff`: which texts are namespaces.
3. `paired_of_isNamespace`: every colon in a namespace has exactly one other colon beside it.
4. `isNamespace_exact` puts these together.
-/

namespace HeaderForge

namespace Namespace

/-! ## Cuts -/

/-- The first two colons that stand together in a text are between these parts of it. -/
structure Cut (t before after : Bytes) : Prop where
  equal : t = before ++ byte ':' :: byte ':' :: after
  first : ∀ front back, t = front ++ byte ':' :: byte ':' :: back → before.length ≤ front.length

/-- No two colons stand together in the text. -/
def Whole (t : Bytes) : Prop := ∀ front back, t ≠ front ++ byte ':' :: byte ':' :: back

theorem Cut.unique {t before after before' after' : Bytes} (h : Cut t before after)
    (h' : Cut t before' after') : before = before' ∧ after = after' := by
  have lengths : before.length = before'.length :=
    Nat.le_antisymm (h.first _ _ h'.equal) (h'.first _ _ h.equal)
  obtain ⟨rfl, rests⟩ := List.append_inj (h.equal.symm.trans h'.equal) lengths
  obtain ⟨-, rests⟩ := List.cons.inj rests
  exact ⟨rfl, (List.cons.inj rests).2⟩

theorem Cut.not_whole {t before after : Bytes} (h : Cut t before after) : ¬ Whole t :=
  fun whole => whole before after h.equal

theorem cut_here (rest : Bytes) : Cut (byte ':' :: byte ':' :: rest) [] rest :=
  ⟨rfl, fun _ _ _ => Nat.zero_le _⟩

section

variable {b : UInt8} {t before after : Bytes}

theorem Cut.cons (h : Cut t before after) (other : ∀ rest, b :: t ≠ byte ':' :: byte ':' :: rest) :
    Cut (b :: t) (b :: before) after := by
  refine ⟨congrArg (b :: ·) h.equal, fun front back equal => ?_⟩
  cases front with
  | nil => exact absurd equal (other back)
  | cons c front => exact Nat.succ_le_succ (h.first front back (List.cons.inj equal).2)

theorem Whole.cons (h : Whole t) (other : ∀ rest, b :: t ≠ byte ':' :: byte ':' :: rest) :
    Whole (b :: t) := by
  intro front back equal
  cases front with
  | nil => exact other back equal
  | cons c front => exact h front back (List.cons.inj equal).2

theorem whole_of_not_mem (plain : byte ':' ∉ t) : Whole t := by
  rintro front back rfl
  exact plain (List.mem_append_right front List.mem_cons_self)

theorem cut_of_not_mem (plain : byte ':' ∉ before) (after : Bytes) :
    Cut (before ++ byte ':' :: byte ':' :: after) before after := by
  induction before with
  | nil => exact cut_here after
  | cons b before ih =>
    have other := List.ne_of_not_mem_cons plain
    exact (ih (List.not_mem_of_not_mem_cons plain)).cons fun rest equal =>
      other (List.cons.inj equal).1.symm

end

/-! ## Pieces -/

/-- What is left of a text that is cut at its first two colons again and again. -/
inductive Pieces : Bytes → List Bytes → Prop
  | last {t : Bytes} : Whole t → Pieces t [t]
  | cut {t before after : Bytes} {others : List Bytes} : Cut t before after →
      Pieces after others → Pieces t (before :: others)

theorem Pieces.ne_nil {t : Bytes} {pieces : List Bytes} (h : Pieces t pieces) : pieces ≠ [] := by
  cases h <;> exact List.cons_ne_nil _ _

theorem Pieces.cons {b : UInt8} {t first : Bytes} {others : List Bytes}
    (h : Pieces t (first :: others)) (other : ∀ rest, b :: t ≠ byte ':' :: byte ':' :: rest) :
    Pieces (b :: t) ((b :: first) :: others) := by
  cases h with
  | last whole => exact .last (whole.cons other)
  | cut cut more => exact .cut (cut.cons other) more

theorem Pieces.unique {t : Bytes} {pieces pieces' : List Bytes} (h : Pieces t pieces)
    (h' : Pieces t pieces') : pieces = pieces' := by
  induction h generalizing pieces' with
  | last whole =>
    cases h' with
    | last => rfl
    | cut cut => exact absurd whole cut.not_whole
  | cut cut _ ih =>
    cases h' with
    | last whole => exact absurd whole cut.not_whole
    | cut cut' more =>
      obtain ⟨rfl, rfl⟩ := cut.unique cut'
      rw [ih more]

theorem pieces_splitColons (t : Bytes) : Pieces t (splitColons t) := by
  induction t using splitColons.induct with
  | case1 => exact .last (whole_of_not_mem List.not_mem_nil)
  | case2 b =>
    have whole : Whole [] := whole_of_not_mem List.not_mem_nil
    exact .last (whole.cons fun rest equal => nomatch (List.cons.inj equal).2)
  | case3 b c rest colons ih =>
    obtain ⟨rfl, rfl⟩ : b = byte ':' ∧ c = byte ':' := by simpa using colons
    exact .cut (cut_here rest) ih
  | case4 b c rest other none ih => exact absurd none ih.ne_nil
  | case5 b c rest other first others split ih =>
    -- No cut is made here, so the byte belongs to the piece that follows it.
    rw [split] at ih
    rw [splitColons, if_neg other, split]
    refine ih.cons fun rest' equal => other ?_
    obtain ⟨rfl, later⟩ := List.cons.inj equal
    obtain ⟨rfl, -⟩ := List.cons.inj later
    rfl

theorem join_colons {others : List Bytes} (more : others ≠ []) (first : Bytes) :
    Bytes.join (bytes "::") (first :: others) =
      first ++ byte ':' :: byte ':' :: Bytes.join (bytes "::") others := by
  rw [Bytes.join_cons _ first more, List.append_assoc]
  rfl

theorem Pieces.eq_join {t : Bytes} {pieces : List Bytes} (h : Pieces t pieces) :
    t = Bytes.join (bytes "::") pieces := by
  induction h with
  | last => rfl
  | @cut t before after others cut more ih => rw [join_colons more.ne_nil, ← ih, ← cut.equal]

theorem pieces_join {pieces : List Bytes} (some_piece : pieces ≠ [])
    (plain : ∀ piece, piece ∈ pieces → byte ':' ∉ piece) :
    Pieces (Bytes.join (bytes "::") pieces) pieces := by
  induction pieces with
  | nil => exact absurd rfl some_piece
  | cons first others ih =>
    obtain ⟨here, later⟩ := List.forall_mem_cons.mp plain
    by_cases more : others = []
    · subst more
      exact .last (whole_of_not_mem here)
    · rw [join_colons more]
      exact .cut (cut_of_not_mem here _) (ih more later)

/-! ## The loop -/

/-- How the check goes on from some place in a text, of which this is what is left: how many rounds
it takes, and what it decides. A round ends the check at a piece that is no segment, and at the last
piece. -/
inductive Loops : Bytes → Nat → Bool → Prop
  | last {t : Bytes} : Whole t → Loops t 1 (isSegment t)
  | refused {t before after : Bytes} : Cut t before after → isSegment before = false →
      Loops t 1 false
  | next {t before after : Bytes} {rounds : Nat} {verdict : Bool} : Cut t before after →
      isSegment before = true → Loops after rounds verdict → Loops t (rounds + 1) verdict

/-- The check of a whole text. No round is made for the empty one. -/
inductive Checks : Bytes → Nat → Bool → Prop
  | empty : Checks [] 0 true
  | loop {t : Bytes} {rounds : Nat} {verdict : Bool} : t ≠ [] → Loops t rounds verdict →
      Checks t rounds verdict

theorem ne_nil_of_isSegment {t : Bytes} (segment : isSegment t = true) : t ≠ [] := by
  rintro rfl
  exact nomatch segment

/-- Every round but the last takes a segment and two colons away. -/
theorem Pieces.loops {t : Bytes} {pieces : List Bytes} (h : Pieces t pieces) :
    ∃ rounds, Loops t rounds (pieces.all isSegment) ∧ 3 * rounds ≤ t.length + 3 := by
  induction h with
  | @last t whole =>
    rw [List.all_cons, List.all_nil, Bool.and_true]
    exact ⟨1, .last whole, Nat.le_add_left _ _⟩
  | @cut t before after others cut _ ih =>
    rw [List.all_cons]
    cases segment : isSegment before with
    | false => exact ⟨1, .refused cut segment, Nat.le_add_left _ _⟩
    | true =>
      obtain ⟨rounds, loops, bounded⟩ := ih
      have proper := List.length_pos_iff.mpr (ne_nil_of_isSegment segment)
      have lengths := congrArg List.length cut.equal
      simp only [List.length_append, List.length_cons] at lengths
      exact ⟨rounds + 1, .next cut segment loops, by omega⟩

theorem Loops.unique {t : Bytes} {rounds rounds' : Nat} {verdict verdict' : Bool}
    (h : Loops t rounds verdict) (h' : Loops t rounds' verdict') :
    rounds' = rounds ∧ verdict' = verdict := by
  induction h generalizing rounds' with
  | last whole =>
    cases h' with
    | last => exact ⟨rfl, rfl⟩
    | refused cut | next cut => exact absurd whole cut.not_whole
  | refused cut none =>
    cases h' with
    | last whole => exact absurd whole cut.not_whole
    | refused => exact ⟨rfl, rfl⟩
    | next cut' segment =>
      obtain ⟨rfl, -⟩ := cut.unique cut'
      exact nomatch none.symm.trans segment
  | next cut segment _ ih =>
    cases h' with
    | last whole => exact absurd whole cut.not_whole
    | refused cut' none =>
      obtain ⟨rfl, -⟩ := cut.unique cut'
      exact nomatch none.symm.trans segment
    | next cut' _ more =>
      obtain ⟨rfl, rfl⟩ := cut.unique cut'
      obtain ⟨rfl, rfl⟩ := ih more
      exact ⟨rfl, rfl⟩

theorem Checks.unique {t : Bytes} {rounds rounds' : Nat} {verdict verdict' : Bool}
    (h : Checks t rounds verdict) (h' : Checks t rounds' verdict') :
    rounds' = rounds ∧ verdict' = verdict := by
  cases h with
  | empty =>
    cases h' with
    | empty => exact ⟨rfl, rfl⟩
    | loop proper => exact absurd rfl proper
  | loop proper loops =>
    cases h' with
    | empty => exact absurd rfl proper
    | loop _ loops' => exact loops.unique loops'

theorem isNamespace_of_ne_nil {t : Bytes} (proper : t ≠ []) :
    isNamespace t = (splitColons t).all isSegment := by
  rw [isNamespace, List.isEmpty_eq_false_iff.mpr proper, Bool.false_or]

theorem exists_checks (t : Bytes) :
    ∃ rounds, Checks t rounds (isNamespace t) ∧ 3 * rounds ≤ t.length + 3 := by
  by_cases empty : t = []
  · subst empty
    exact ⟨0, .empty, Nat.zero_le _⟩
  · obtain ⟨rounds, loops, bounded⟩ := (pieces_splitColons t).loops
    rw [isNamespace_of_ne_nil empty]
    exact ⟨rounds, .loop empty loops, bounded⟩

/-! ## Names -/

/-- What a name starts with: an ASCII letter or an underscore. -/
def StartsName (b : UInt8) : Prop :=
  (byte 'A' ≤ b ∧ b ≤ byte 'Z') ∨ (byte 'a' ≤ b ∧ b ≤ byte 'z') ∨ b = byte '_'

/-- What a name goes on with: also ASCII digits. -/
def ContinuesName (b : UInt8) : Prop := StartsName b ∨ (byte '0' ≤ b ∧ b ≤ byte '9')

inductive Segment : Bytes → Prop
  | mk {first : UInt8} {rest : Bytes} : StartsName first → (∀ b, b ∈ rest → ContinuesName b) →
      Segment (first :: rest)

theorem startsName_iff {b : UInt8} :
    (Byte.isLetter b || b == byte '_') = true ↔ StartsName b := by
  simp [Byte.isLetter, Byte.isUpper, Byte.isLower, StartsName, byte, or_assoc]

theorem continuesName_iff {b : UInt8} : Byte.isWord b = true ↔ ContinuesName b := by
  rw [ContinuesName, ← startsName_iff]
  simp [Byte.isWord, Byte.isAlnum, Byte.isDigit, byte, or_right_comm]

theorem isSegment_iff {t : Bytes} : isSegment t = true ↔ Segment t := by
  cases t with
  | nil => exact ⟨nofun, nofun⟩
  | cons first rest =>
    rw [isSegment, Bool.and_eq_true, startsName_iff, List.all_eq_true]
    constructor
    · rintro ⟨starts, words⟩
      exact .mk starts fun b member => continuesName_iff.mp (words b member)
    · rintro ⟨starts, continues⟩
      exact ⟨starts, fun b member => continuesName_iff.mpr (continues b member)⟩

theorem Segment.ne_nil {t : Bytes} (h : Segment t) : t ≠ [] := by
  cases h
  exact List.cons_ne_nil _ _

theorem Segment.continues {t : Bytes} (h : Segment t) {b : UInt8} (member : b ∈ t) :
    ContinuesName b := by
  cases h with
  | mk starts continues =>
    rcases List.mem_cons.mp member with rfl | later
    · exact .inl starts
    · exact continues b later

theorem Segment.plain {t : Bytes} (h : Segment t) : byte ':' ∉ t := fun member =>
  absurd (continuesName_iff.mpr (h.continues member)) (by decide)

/-! ## Namespaces -/

theorem isNamespace_iff {t : Bytes} : isNamespace t = true ↔
    t = [] ∨ ∃ segments, segments ≠ [] ∧ (∀ segment, segment ∈ segments → Segment segment) ∧
      t = Bytes.join (bytes "::") segments := by
  have pieces := pieces_splitColons t
  constructor
  · intro accepted
    rw [isNamespace, Bool.or_eq_true, List.isEmpty_iff, List.all_eq_true] at accepted
    refine accepted.imp_right fun segments => ?_
    exact ⟨splitColons t, pieces.ne_nil,
      fun piece member => isSegment_iff.mp (segments piece member), pieces.eq_join⟩
  · rintro (rfl | ⟨segments, some_segment, names, equal⟩)
    · rfl
    · have cuts := pieces_join some_segment fun segment member => (names segment member).plain
      rw [← equal] at cuts
      rw [isNamespace, pieces.unique cuts, Bool.or_eq_true, List.all_eq_true]
      exact .inr fun segment member => isSegment_iff.mpr (names segment member)

/-- A namespace is made of words and colons. -/
theorem plain_of_isNamespace {t : Bytes} (namespace_ : isNamespace t = true) {b : UInt8}
    (member : b ∈ t) : b = byte ':' ∨ Byte.isWord b = true := by
  rcases isNamespace_iff.mp namespace_ with rfl | ⟨segments, -, names, rfl⟩
  · exact nomatch member
  · rcases Bytes.mem_of_mem_join member with colons | ⟨segment, there, inside⟩
    · have marks : bytes "::" = List.replicate 2 (byte ':') := rfl
      exact .inl (List.eq_of_mem_replicate (marks ▸ colons))
    · exact .inr (continuesName_iff.mpr ((names segment there).continues inside))

/-! ## Colons -/

/-- A colon between these texts has text on both sides, and exactly one of the bytes beside it is a
colon. -/
structure Paired (front back : Bytes) : Prop where
  before : front ≠ []
  after : back ≠ []
  paired : front.getLast? = some (byte ':') ↔ back.head? ≠ some (byte ':')

/-- A colon after a text without colons is the one that comes next or a later one. -/
theorem next_or_later {s u front back : Bytes} (plain : byte ':' ∉ s)
    (equal : s ++ byte ':' :: u = front ++ byte ':' :: back) :
    (front = s ∧ back = u) ∨
      ∃ later, front = s ++ byte ':' :: later ∧ u = later ++ byte ':' :: back := by
  induction s generalizing front with
  | nil =>
    cases front with
    | nil => exact .inl ⟨rfl, (List.cons.inj equal).2.symm⟩
    | cons b front =>
      obtain ⟨rfl, rest⟩ := List.cons.inj equal
      exact .inr ⟨front, rfl, rest⟩
  | cons c s ih =>
    cases front with
    | nil => exact absurd (List.cons.inj equal).1.symm (List.ne_of_not_mem_cons plain)
    | cons b front =>
      obtain ⟨rfl, rest⟩ := List.cons.inj equal
      refine (ih (List.not_mem_of_not_mem_cons plain) rest).imp ?_ ?_
      · rintro ⟨rfl, rfl⟩
        exact ⟨rfl, rfl⟩
      · rintro ⟨later, rfl, rfl⟩
        exact ⟨later, rfl, rfl⟩

theorem head?_join {segments : List Bytes} (some_segment : segments ≠ [])
    (names : ∀ segment, segment ∈ segments → Segment segment) :
    ∃ b rest, Bytes.join (bytes "::") segments = b :: rest ∧ b ≠ byte ':' := by
  cases segments with
  | nil => exact absurd rfl some_segment
  | cons first others =>
    have name := names first List.mem_cons_self
    obtain ⟨b, rest, rfl⟩ := List.exists_cons_of_ne_nil name.ne_nil
    have other : b ≠ byte ':' := fun colon => name.plain (colon ▸ List.mem_cons_self)
    cases others <;> exact ⟨b, _, rfl, other⟩

theorem paired_of_join {segments : List Bytes} {front back : Bytes}
    (names : ∀ segment, segment ∈ segments → Segment segment)
    (equal : Bytes.join (bytes "::") segments = front ++ byte ':' :: back) : Paired front back := by
  induction segments generalizing front with
  | nil => exact absurd equal.symm (by simp [Bytes.join])
  | cons first others ih =>
    obtain ⟨name, names⟩ := List.forall_mem_cons.mp names
    by_cases more : others = []
    · subst more
      have alone : first = front ++ byte ':' :: back := equal
      exact absurd (alone ▸ List.mem_append_right front List.mem_cons_self) name.plain
    · obtain ⟨b, rest, next, other⟩ := head?_join more names
      rw [join_colons more] at equal
      rcases next_or_later name.plain equal with ⟨rfl, rfl⟩ | ⟨later, rfl, second⟩
      · -- The first of the two colons after the first name.
        refine ⟨name.ne_nil, List.cons_ne_nil _ _, ?_⟩
        have last : front.getLast? ≠ some (byte ':') := fun colon =>
          name.plain (List.mem_of_getLast? colon)
        simp [last]
      · rcases @next_or_later [] _ later back List.not_mem_nil second with
          ⟨rfl, rfl⟩ | ⟨later, rfl, far⟩
        · -- The second one.
          rw [next]
          exact ⟨by simp, List.cons_ne_nil _ _, by simp [other]⟩
        · -- A colon after the second name.
          have there := ih names far
          have last : (first ++ [byte ':', byte ':'] ++ later).getLast? = later.getLast? :=
            List.getLast?_append_of_ne_nil _ there.before
          refine ⟨by simp, there.after, ?_⟩
          rw [← there.paired, ← last, List.append_assoc]
          rfl

theorem paired_of_isNamespace {front back : Bytes}
    (accepted : isNamespace (front ++ byte ':' :: back) = true) : Paired front back := by
  rcases isNamespace_iff.mp accepted with empty | ⟨segments, -, names, equal⟩
  · exact absurd empty (by simp)
  · exact paired_of_join names equal.symm

/-- The check comes to an end on every text, after no more rounds than there is room for names and
colons, and its answer is the only one. It accepts the empty text and lists of names with two colons
between each two, and nothing else. So a text is refused that starts or ends with a colon, and one
that has three colons in a row or one alone. -/
theorem isNamespace_exact :
    (∀ t, ∃ rounds, Checks t rounds (isNamespace t) ∧ 3 * rounds ≤ t.length + 3 ∧
      ∀ rounds' verdict, Checks t rounds' verdict →
        rounds' = rounds ∧ verdict = isNamespace t) ∧
    (∀ t, isNamespace t = true ↔ t = [] ∨ ∃ segments, segments ≠ [] ∧
      (∀ segment, segment ∈ segments → Segment segment) ∧
      t = Bytes.join (bytes "::") segments) ∧
    (∀ back, isNamespace (byte ':' :: back) = false) ∧
    (∀ front, isNamespace (front ++ [byte ':']) = false) ∧
    (∀ front back, isNamespace (front ++ bytes ":::" ++ back) = false) ∧
    ∀ front back, front.getLast? ≠ some (byte ':') → back.head? ≠ some (byte ':') →
      isNamespace (front ++ byte ':' :: back) = false := by
  refine ⟨fun t => ?_, fun t => isNamespace_iff, fun back => ?_, fun front => ?_,
    fun front back => ?_, fun front back last next => ?_⟩
  · obtain ⟨rounds, checks, bounded⟩ := exists_checks t
    exact ⟨rounds, checks, bounded, fun _ _ => checks.unique⟩
  · exact Bool.eq_false_iff.mpr fun accepted =>
      (@paired_of_isNamespace [] back accepted).before rfl
  · exact Bool.eq_false_iff.mpr fun accepted => (paired_of_isNamespace accepted).after rfl
  · refine Bool.eq_false_iff.mpr fun accepted => ?_
    -- The colon in the middle has a colon on either side.
    have middle : front ++ bytes ":::" ++ back =
        (front ++ [byte ':']) ++ byte ':' :: (byte ':' :: back) := by
      rw [List.append_assoc, List.append_assoc]
      rfl
    rw [middle] at accepted
    exact (paired_of_isNamespace accepted).paired.mp List.getLast?_concat rfl
  · exact Bool.eq_false_iff.mpr fun accepted =>
      last ((paired_of_isNamespace accepted).paired.mpr next)

/-- Three names, of which the last has one colon before it where two belong. -/
theorem isNamespace_exact_exSingle :
    isNamespace (bytes "a::_b::c1") = true ∧
    (bytes "a::_b").getLast? ≠ some (byte ':') ∧ (bytes "c1").head? ≠ some (byte ':') ∧
    isNamespace (bytes "a::_b:c1") = false := by
  obtain ⟨-, grammar, -, -, -, single⟩ := isNamespace_exact
  have names : ∀ segment, segment ∈ [bytes "a", bytes "_b", bytes "c1"] → Segment segment := by
    have checked : [bytes "a", bytes "_b", bytes "c1"].all isSegment = true := by decide
    exact fun segment member => isSegment_iff.mp (List.all_eq_true.mp checked segment member)
  have last : (bytes "a::_b").getLast? ≠ some (byte ':') := by decide
  have next : (bytes "c1").head? ≠ some (byte ':') := by decide
  exact ⟨(grammar _).mpr (.inr ⟨_, List.cons_ne_nil _ _, names, rfl⟩), last, next,
    single (bytes "a::_b") (bytes "c1") last next⟩

end Namespace

end HeaderForge
