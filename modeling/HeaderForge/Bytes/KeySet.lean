import HeaderForge.Bytes
/-!
# Sets of keys

The keys that came before, so that one that comes again is found by its bytes alone and not by
going through all of them.

`KeySet.contains_insert` is what a set answers after a key was added.
-/

namespace HeaderForge

/-- A set of texts. The texts that start with a byte are the ones of its branch with the byte in
front of them. -/
inductive KeySet where
  | node (holdsEmpty : Bool) (branches : List (UInt8 × KeySet))
deriving Inhabited

namespace KeySet

def empty : KeySet := node false []

def contains : KeySet → Bytes → Bool
  | node holdsEmpty _, [] => holdsEmpty
  | node _ branches, b :: key =>
    match branches.lookup b with
    | some s => s.contains key
    | none => false

/-- Changes the branch of a byte, which is empty where there is none. -/
def changeBranch (change : KeySet → KeySet) (b : UInt8) :
    List (UInt8 × KeySet) → List (UInt8 × KeySet)
  | [] => [(b, change empty)]
  | (c, s) :: rest =>
    if b == c then (c, change s) :: rest else (c, s) :: changeBranch change b rest

def insert : Bytes → KeySet → KeySet
  | [], node _ branches => node true branches
  | b :: key, node holdsEmpty branches => node holdsEmpty (changeBranch (insert key) b branches)

/-! ## What a set answers -/

@[simp] theorem contains_empty (key : Bytes) : empty.contains key = false := by
  cases key <;> simp [empty, contains]

theorem lookup_changeBranch (change : KeySet → KeySet) (b c : UInt8)
    (branches : List (UInt8 × KeySet)) :
    (changeBranch change b branches).lookup c =
      if c == b then some (change ((branches.lookup b).getD empty)) else branches.lookup c := by
  induction branches with
  | nil => cases h : c == b <;> simp [changeBranch, List.lookup_cons, h]
  | cons entry rest ih =>
    obtain ⟨d, s⟩ := entry
    by_cases hbd : b = d
    · subst hbd
      cases h : c == b <;> simp [changeBranch, List.lookup_cons, h]
    · by_cases hcd : c = d
      · subst hcd
        simp [changeBranch, hbd, Ne.symm hbd]
      · have hbd' : (b == d) = false := by simp [hbd]
        have hcd' : (c == d) = false := by simp [hcd]
        simp [changeBranch, List.lookup_cons, hbd', hcd', ih]

@[simp] theorem contains_insert (key other : Bytes) (s : KeySet) :
    (s.insert key).contains other = (other == key || s.contains other) := by
  induction key generalizing other s with
  | nil =>
    obtain ⟨holdsEmpty, branches⟩ := s
    cases other <;> simp [insert, contains]
  | cons b key ih =>
    obtain ⟨holdsEmpty, branches⟩ := s
    cases other with
    | nil => simp [insert, contains]
    | cons c other =>
      simp only [insert, contains, lookup_changeBranch]
      by_cases hcb : c = b
      · subst hcb
        cases h : branches.lookup c <;> simp [ih]
      · simp [hcb]

end KeySet

end HeaderForge
