import HeaderForge.Bytes
/-!
# Document trees

What the readers produce: objects keep their entries in source order, and a number is the text it
was written with, so that printing and hashing stay exact.
-/

namespace HeaderForge

inductive Node where
  | null
  | bool (value : Bool)
  | num (lexeme : Bytes)
  | str (value : Bytes)
  | arr (items : List Node)
  | obj (entries : List (Bytes × Node))
deriving Repr, Inhabited

namespace Node

def isNull : Node → Bool
  | null => true
  | _ => false

def isString : Node → Bool
  | str _ => true
  | _ => false

/-- The entries of an object, if it is one. -/
def entries? : Node → Option (List (Bytes × Node))
  | obj entries => some entries
  | _ => none

def items? : Node → Option (List Node)
  | arr items => some items
  | _ => none

/-- The value at a key of an object. Nothing but an object has keys. -/
def find? (n : Node) (key : Bytes) : Option Node :=
  match n with
  | obj entries => entries.lookup key
  | _ => none

def stringAt? (n : Node) (key : Bytes) : Option Bytes :=
  match n.find? key with
  | some (str value) => some value
  | _ => none

/-- A truth value, which may also be spelled as a string. -/
def toBool? : Node → Option Bool
  | bool value => some value
  | str value =>
    if value = bytes "true" then some true
    else if value = bytes "false" then some false
    else none
  | _ => none

def boolAt? (n : Node) (key : Bytes) : Option Bool := (n.find? key).bind toBool?

/-- The text of a string or number; every other node carries none. -/
def text : Node → Bytes
  | num lexeme => lexeme
  | str value => value
  | _ => []

end Node

end HeaderForge
