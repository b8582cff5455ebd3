import HeaderForge.Schema.Index
/-!
# References between schemas

1. `referenceName?` says which name a reference token designates.
2. `Schema.mentions` lists every token that a schema holds, in document order.
3. `Index.edges` are the named schemas that a named schema refers to, and `Index.reachable` is what
   can be reached through them.
4. `Index.reaches` searches for a way from one name to another, and `Index.closesCycle` for a way
   back.
-/

namespace HeaderForge

/-- What the references of either dialect start with. -/
def referenceFronts : List Bytes := [bytes "#/components/schemas/", bytes "#/definitions/"]

def plainName? (name : Bytes) : Option Bytes :=
  if name.isEmpty || byte '/' ∈ name then none else some name

/-- The name that a token designates: what follows the front of a dialect, or a bare name. Tokens
that point anywhere else designate none. -/
def referenceName? (token : Bytes) : Option Bytes :=
  match referenceFronts.findSome? fun front => Bytes.dropFront? front token with
  | some name => plainName? name
  | none => if byte '#' ∈ token then none else plainName? token

/-! ## Mentions -/

/-- A token that a schema holds, and how many levels below the schema it stands. -/
structure Mention where
  token : Bytes
  depth : Nat
  /-- Whether it is the target of a discriminator tag. -/
  inMapping : Bool
deriving DecidableEq, Repr

namespace Discriminator

/-- The targets of the tags. -/
def tokens (d : Option Discriminator) : List Bytes :=
  match d with
  | some d => d.mapping.map Prod.snd
  | none => []

def mentions (depth : Nat) (d : Option Discriminator) : List Mention :=
  match d with
  | some d => d.mapping.map fun (_, token) => ⟨token, depth, true⟩
  | none => []

end Discriminator

namespace Schema

mutual
/-- The tokens that a schema at the given depth holds, without following any. -/
def mentions (depth : Nat) : Schema → List Mention
  | reference _ token => [⟨token, depth, false⟩]
  | array _ (some items) => mentions (depth + 1) items
  | object _ properties _ (.each extra) =>
    mentionsOfProperties (depth + 1) properties ++ mentions (depth + 1) extra
  | object _ properties _ _ => mentionsOfProperties (depth + 1) properties
  | allOf _ members => mentionsOfMembers (depth + 1) members
  | union _ _ members discriminator =>
    mentionsOfMembers (depth + 1) members ++ Discriminator.mentions depth discriminator
  | primitive _ | enumeration _ _ | array _ none => []

def mentionsOfMembers (depth : Nat) : List Schema → List Mention
  | [] => []
  | member :: rest => mentions depth member ++ mentionsOfMembers depth rest

def mentionsOfProperties (depth : Nat) : List (Bytes × Schema) → List Mention
  | [] => []
  | (_, property) :: rest => mentions depth property ++ mentionsOfProperties depth rest
end

end Schema

/-! ## The reference graph -/

namespace Index

/-- The schema that a token refers to. -/
def resolve? (index : Index) (token : Bytes) : Option NamedSchema :=
  (referenceName? token).bind index.find?

/-- The named schemas that a schema refers to outside discriminators, each once. -/
def directReferences (index : Index) (s : Schema) : List Bytes :=
  (((s.mentions 0).filter fun m => !m.inMapping).filterMap fun m =>
    (index.resolve? m.token).map NamedSchema.name).eraseDups

/-- The direct references of a named schema. -/
def edges (index : Index) (name : Bytes) : List Bytes :=
  match index.find? name with
  | some s => index.directReferences s.schema
  | none => []

/-- The names of a finite domain that lead from the pending ones through `next`. Each name that is
found leaves the domain, so the size of the domain bounds the steps. Pending names outside the
domain have been found or never are. -/
def gather (next : Bytes → List Bytes) : (bound : Nat) → (domain pending : List Bytes) → List Bytes
  | 0, _, _ => []
  | bound + 1, domain, pending =>
    match pending.dropWhile fun name => !domain.contains name with
    | [] => []
    | name :: rest => name :: gather next bound (domain.erase name) (next name ++ rest)

/-- What a named schema leads to through one or more references. -/
def reachable (index : Index) (name : Bytes) : List Bytes :=
  gather index.edges index.names.length index.names (index.edges name)

/-! ## Searching -/

/-- The direct references of the names that searches have come by. They are collected once for each
name, whichever search comes by it next. -/
abbrev EdgeTable := List (Bytes × List Bytes)

/-- The direct references of a named schema, and the table that has them. -/
def edgesFrom (index : Index) (table : EdgeTable) (name : Bytes) : List Bytes × EdgeTable :=
  match table.lookup name with
  | some known => (known, table)
  | none => (index.edges name, (name, index.edges name) :: table)

/-- Searches depth first: of the pending names the one that came last is visited next, unless it was
seen before. A visit adds a name to those that were seen, so the number of names bounds the
visits. -/
def search (index : Index) (target : Bytes) :
    (visits : Nat) → EdgeTable → (seen pending : List Bytes) → Bool × EdgeTable
  | 0, table, _, _ => (false, table)
  | visits + 1, table, seen, pending =>
    match pending.dropWhile fun name => name ≠ target && seen.contains name with
    | [] => (false, table)
    | current :: rest =>
      if current = target then (true, table)
      else
        let next := index.edgesFrom table current
        search index target visits next.2 (current :: seen) (next.1.reverse ++ rest)

/-- Whether one or more references lead from one name to another, with the table that earlier
searches have left. -/
def reachesFrom (index : Index) (table : EdgeTable) (source target : Bytes) : Bool × EdgeTable :=
  let first := index.edgesFrom table source
  index.search target (index.names.length + 1) first.2 [] first.1.reverse

def reaches (index : Index) (source target : Bytes) : Bool := (index.reachesFrom [] source target).1

/-- A reference from `source` to `target` closes a cycle when the target leads back. -/
def closesCycleFrom (index : Index) (table : EdgeTable) (source target : Bytes) :
    Bool × EdgeTable :=
  if source = target then (true, table) else index.reachesFrom table target source

def closesCycle (index : Index) (source target : Bytes) : Bool :=
  (index.closesCycleFrom [] source target).1

end Index

end HeaderForge
