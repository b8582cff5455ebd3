import HeaderForge.Bytes
/-!
# Sorting

Sorting by merging. The order of texts is unsigned byte by byte, a proper front first; the sort is
stable, so entries with equal keys keep their order.
-/

namespace HeaderForge

/-- Puts the first entry of a list, whose others `merge` merges, and a second list in order. Of
equal entries, that of the first list comes first. -/
def mergeFirst {α : Type} (le : α → α → Bool) (x : α) (merge : List α → List α) :
    List α → List α
  | [] => x :: merge []
  | y :: ys => if le x y then x :: merge (y :: ys) else y :: mergeFirst le x merge ys

/-- Merges two lists that are in order. -/
def mergeBy {α : Type} (le : α → α → Bool) : List α → List α → List α
  | [] => fun ys => ys
  | x :: xs => mergeFirst le x (mergeBy le xs)

/-- Sorts a list by halving it as often as the bound says, which its length is enough for. -/
def sortWithin {α : Type} (le : α → α → Bool) : (bound : Nat) → List α → List α
  | bound + 1, x :: y :: rest =>
    let half := (rest.length + 2) / 2
    mergeBy le (sortWithin le bound ((x :: y :: rest).take half))
      (sortWithin le bound ((x :: y :: rest).drop half))
  | _, xs => xs

def sortBy {α : Type} (le : α → α → Bool) (xs : List α) : List α := sortWithin le xs.length xs

namespace Bytes

/-- Unsigned lexicographic order. -/
def le : Bytes → Bytes → Bool
  | [], _ => true
  | _ :: _, [] => false
  | a :: as, b :: bs => a < b || (a == b && le as bs)

def sort (texts : List Bytes) : List Bytes := sortBy le texts

/-- Entries in the order of their keys. -/
def sortKeys {α : Type} (entries : List (Bytes × α)) : List (Bytes × α) :=
  sortBy (fun a b => le a.1 b.1) entries

/-- The distinct texts of a list in order. -/
def sortDistinct (texts : List Bytes) : List Bytes := (sort texts).eraseDups

end Bytes

/-- Sets a key in a list that is kept in key order, replacing what it had. -/
def putSorted {α : Type} (key : Bytes) (value : α) : List (Bytes × α) → List (Bytes × α)
  | [] => [(key, value)]
  | entry :: rest =>
    if key = entry.1 then (key, value) :: rest
    else if key < entry.1 then (key, value) :: entry :: rest
    else entry :: putSorted key value rest

end HeaderForge
