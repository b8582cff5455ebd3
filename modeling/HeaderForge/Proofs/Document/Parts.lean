import HeaderForge.Document.Draft
import HeaderForge.Proofs.Document.Grammar
import HeaderForge.Proofs.Document.Inline
/-!
# The parts of a tree

What is said of a tree "at every depth" is said of its parts: the nodes that lie some levels below
it, itself included. A tree is well-formed where each of its parts is proper, and a part lies no
more levels down than the tree is deep.

1. `Node.Part` tells the parts of a tree and their levels.
2. `Node.Proper` is what each part shows: labels and children that fit its kind, and a number that
   the number grammar spells.
3. `Document.proper_of_reads`: the parts of a tree that is read are proper, whatever reads it.
-/

namespace HeaderForge

namespace Node

/-- `n.Part level m`: the node `m` lies this many levels below `n`. -/
inductive Part : Node → Nat → Node → Prop
  | self (n : Node) : Part n 0 n
  | item {items : List Node} {item m : Node} {level : Nat} :
      item ∈ items → Part item level m → Part (.arr items) (level + 1) m
  | entry {entries : List (Bytes × Node)} {key : Bytes} {value m : Node} {level : Nat} :
      (key, value) ∈ entries → Part value level m → Part (.obj entries) (level + 1) m

theorem depth_lt_of_mem_items {items : List Node} {item : Node} (h : item ∈ items) :
    item.depth < depthOfItems items := by
  induction items with
  | nil => exact nomatch h
  | cons first rest ih =>
    simp only [depthOfItems]
    rcases List.mem_cons.mp h with rfl | h
    · omega
    · have := ih h
      omega

theorem depth_lt_of_mem_entries {entries : List (Bytes × Node)} {key : Bytes} {value : Node}
    (h : (key, value) ∈ entries) : value.depth < depthOfEntries entries := by
  induction entries with
  | nil => exact nomatch h
  | cons first rest ih =>
    obtain ⟨name, held⟩ := first
    simp only [depthOfEntries]
    rcases List.mem_cons.mp h with equal | h
    · cases equal
      omega
    · have := ih h
      omega

theorem Part.level_le_depth {n m : Node} {level : Nat} (h : n.Part level m) : level ≤ n.depth := by
  induction h with
  | self => exact Nat.zero_le _
  | item member _ ih =>
    have := depth_lt_of_mem_items member
    rw [depth]
    omega
  | entry member _ ih =>
    have := depth_lt_of_mem_entries member
    rw [depth]
    omega

theorem WellFormed.part {n m : Node} {level : Nat} (wf : n.WellFormed) (h : n.Part level m) :
    m.WellFormed := by
  induction h with
  | self => exact wf
  | item member _ ih => exact ih (wellFormedItems_iff.mp wf _ member)
  | entry member _ ih => exact ih (wellFormedEntries_iff.mp wf.2 _ member)

/-! ## Proper nodes -/

/-- The keys that a node shows. -/
def labels (n : Node) : List Bytes := (Draft.ofNode n).labels

def children (n : Node) : List Node := (Draft.ofNode n).children

/-- A node by itself: an object has a key for each child and no key twice, an array has children
only, and a scalar has neither. A number is one of the grammar, and null and truth values carry no
text. -/
def Proper : Node → Prop
  | obj entries => (obj entries).labels.length = (obj entries).children.length ∧
      (obj entries).labels.Nodup
  | arr items => (arr items).labels = []
  | num lexeme => (num lexeme).labels = [] ∧ (num lexeme).children = [] ∧ Number.Spelled lexeme
  | str value => (str value).labels = [] ∧ (str value).children = []
  | null => null.labels = [] ∧ null.children = [] ∧ null.text = []
  | bool value => (bool value).labels = [] ∧ (bool value).children = [] ∧ (bool value).text = []

theorem WellFormed.proper {n : Node} (wf : n.WellFormed) : n.Proper := by
  cases n with
  | obj entries => exact ⟨by simp [labels, children, Draft.ofNode], wf.1⟩
  | arr items => rfl
  | num lexeme => exact ⟨rfl, rfl, Number.isLexeme_iff.mp wf⟩
  | str => exact ⟨rfl, rfl⟩
  | null => exact ⟨rfl, rfl, rfl⟩
  | bool => exact ⟨rfl, rfl, rfl⟩

end Node

namespace Document

/-- Every part of a tree that a reader returns is proper, be the text read as JSON, as YAML, or as
what its first byte says. -/
theorem proper_of_reads {t : Bytes} {n m : Node} {level : Nat}
    (reads : Json.read t = .ok n ∨ Yaml.read t = .ok n ∨ read t = .ok n) (part : n.Part level m) :
    m.Proper := by
  have wf : n.WellFormed := by
    rcases reads with json | yaml | either
    · exact Json.wellFormed_of_read json
    · exact Yaml.wellFormed_of_read yaml
    · exact wellFormed_of_read either
  exact (wf.part part).proper

/-- A mapping of one line, with a flow collection as its value. -/
def exLine : Bytes := bytes "way: [~, \x7bkm: -1.5e3\x7d]"

def exWay : Node := .obj [(bytes "way", .arr [.null, .obj [(bytes "km", .num (bytes "-1.5e3"))]])]

theorem read_exLine : Yaml.read exLine = .ok exWay := by
  have text : Yaml.Line.ofText exLine = [⟨0, exLine, exLine, 1⟩] := rfl
  have colon : Yaml.breakAtKeyColon? .start exLine = some (bytes "way", exLine.drop 4) := rfl
  exact Yaml.read_entry text rfl colon fun bound => Yaml.nested_flow rfl rfl rfl bound []

theorem proper_of_reads_exLine :
    Yaml.read exLine = .ok exWay ∧ exWay.Part 3 (.num (bytes "-1.5e3")) ∧
      (Node.num (bytes "-1.5e3")).Proper := by
  have part : exWay.Part 3 (.num (bytes "-1.5e3")) :=
    .entry List.mem_cons_self (.item (List.mem_cons_of_mem _ List.mem_cons_self)
      (.entry List.mem_cons_self (.self _)))
  exact ⟨read_exLine, part, proper_of_reads (.inr (.inl read_exLine)) part⟩

end Document

end HeaderForge
