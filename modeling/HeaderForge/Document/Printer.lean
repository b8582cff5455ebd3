import HeaderForge.Bytes.Sorted
import HeaderForge.Document.Node
import HeaderForge.Document.Quoted
import HeaderForge.Hash
/-!
# Printing documents

1. `Node.toJson` prints a tree as JSON without insignificant blanks.
2. `Node.canonical` prints it with the entries of every object in key order, so that two trees that
   differ in the order of keys only print the same.
3. `Node.contentHash` is the hash of the canonical text.
-/

namespace HeaderForge

namespace Node

mutual
def toJson : Node → Bytes
  | null => bytes "null"
  | bool value => if value then bytes "true" else bytes "false"
  | num lexeme => lexeme
  | str value => Quoted.quote value
  | arr items => byte '[' :: toJsonItems items
  | obj entries => byte '\x7b' :: toJsonEntries entries

/-- The items of an array and its closing bracket. -/
def toJsonItems : List Node → Bytes
  | [] => [byte ']']
  | [last] => toJson last ++ [byte ']']
  | item :: rest => toJson item ++ byte ',' :: toJsonItems rest

/-- The entries of an object and its closing brace. -/
def toJsonEntries : List (Bytes × Node) → Bytes
  | [] => [byte '\x7d']
  | [(key, value)] => Quoted.quote key ++ byte ':' :: toJson value ++ [byte '\x7d']
  | (key, value) :: rest =>
    Quoted.quote key ++ byte ':' :: toJson value ++ byte ',' :: toJsonEntries rest
end

mutual
/-- The tree with the entries of every object in key order. -/
def sorted : Node → Node
  | arr items => arr (sortedItems items)
  | obj entries => obj (Bytes.sortKeys (sortedEntries entries))
  | scalar => scalar

def sortedItems : List Node → List Node
  | [] => []
  | item :: rest => sorted item :: sortedItems rest

def sortedEntries : List (Bytes × Node) → List (Bytes × Node)
  | [] => []
  | (key, value) :: rest => (key, sorted value) :: sortedEntries rest
end

def canonical (n : Node) : Bytes := n.sorted.toJson

def contentHash (n : Node) : Bytes := Hash.text (Hash.fnv1a n.canonical)

/-- How a node reads as an enumeration literal or an example: strings and numbers stand for
themselves, everything else for its JSON text. -/
def scalarText : Node → Bytes
  | num lexeme => lexeme
  | str value => value
  | other => other.toJson

end Node

end HeaderForge
