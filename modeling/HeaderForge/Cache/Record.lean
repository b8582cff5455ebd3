import HeaderForge.Bytes.Sorted
import HeaderForge.Document.Json
import HeaderForge.Document.Quoted
/-!
# Cache records

What a run leaves for the next one: the style it generated in and, for each schema whose file is up
to date, the hash of what the file depends on. A record is a JSON document with its names in order.
-/

namespace HeaderForge

structure CacheRecord where
  style : Bytes
  /-- From names to hashes, in the order of the names. -/
  hashes : List (Bytes × Bytes)
deriving DecidableEq, Repr

namespace CacheRecord

/-- The hashes of the entries, none of which may be anything but a text. -/
def hashesOf : List (Bytes × Node) → Option (List (Bytes × Bytes))
  | [] => some []
  | (name, .str hash) :: rest =>
    if hash.isEmpty then none else (hashesOf rest).map (putSorted name hash)
  | _ :: _ => none

def styleOf (n : Node) : Option Bytes :=
  match n.find? (bytes "backend") with
  | none => some []
  | some (.str style) => some style
  | some _ => none

def ofNode (n : Node) : Option CacheRecord := do
  let style ← styleOf n
  let hashes ← hashesOf (← (← n.find? (bytes "schemas")).entries?)
  return ⟨style, hashes⟩

/-- The record that a text holds, if it holds one. -/
def read (t : Bytes) : Option CacheRecord := (Json.read t).toOption.bind ofNode

def entryText (entry : Bytes × Bytes) : Bytes :=
  row ["    ", Quoted.quote entry.1, ": ", Quoted.quote entry.2]

/-- The text of a record. -/
def text (r : CacheRecord) : Bytes :=
  row ["\x7b\n  \"backend\": ", Quoted.quote r.style, ",\n  \"schemas\": \x7b",
    if r.hashes.isEmpty then "\x7d\n"
    else row ["\n", Bytes.join ",\n" (r.hashes.map entryText), "\n  \x7d\n"],
    "\x7d\n"]

end CacheRecord

end HeaderForge
