import HeaderForge.Class.Registry
import HeaderForge.Diagnostic
import HeaderForge.Log
import HeaderForge.Schema.Reference
/-!
# Building classes: state

What a build carries along: the names that are open, the findings, the log, what the class under
construction has been found to need, and the classes that are done. A step may fail; what it
reported and finished before stays.
-/

namespace HeaderForge

structure BuildState where
  /-- The names that are being expanded, the first one opened first. -/
  stack : List Bytes
  diagnostics : Diagnostics
  log : Log
  /-- The classes that the class under construction mentions. -/
  dependencies : List Dependency
  /-- The enumerations that the class under construction declares. -/
  inlineEnums : List EnumDef
  registry : Registry
deriving Repr

abbrev Build := ExceptT FailureKind (StateM BuildState)

namespace Build

def start : BuildState := ⟨[], [], Log.empty, [], [], Registry.empty⟩

def report (d : Diagnostic) : Build Unit :=
  modify fun s => { s with diagnostics := s.diagnostics.report d }

def warning (rule subject message : Bytes) : Build Unit :=
  report ⟨rule, .warning, subject, message⟩

def write (line : LogLine) : Build Unit := modify fun s => { s with log := s.log.write line }

def detail (tag message : Bytes) : Build Unit := write ⟨.detail, tag, message⟩

def warn (tag message : Bytes) : Build Unit := write ⟨.warning, tag, message⟩

/-! ## Open names -/

/-- Opens a name unless it is open, and says whether it did. -/
def enter (name : Bytes) : Build Bool := do
  if name ∈ (← get).stack then return false
  else
    modify fun s => { s with stack := s.stack ++ [name] }
    return true

/-- The state after a name is closed. No name is open twice. -/
def closing (name : Bytes) (s : BuildState) : BuildState := { s with stack := s.stack.erase name }

def leave (name : Bytes) : Build Unit := modify (closing name)

/-- Runs a step and closes a name after it, also when it fails. -/
def leaving {α : Type} (name : Bytes) (step : Build α) : Build α :=
  ExceptT.mk fun s =>
    let (outcome, s) := step.run.run s
    (outcome, closing name s)

/-- Runs a step with a name open. The step learns whether the name was opened for it. -/
def visiting {α : Type} (name : Bytes) (step : (entered : Bool) → Build α) : Build α := do
  if ← enter name then leaving name (step true) else step false

/-! ## Resolving -/

def unresolved (subject message : Bytes) : Build Unit :=
  report ⟨bytes "unresolved_reference", .error, subject, message⟩

/-- Reports a token that no schema answers to. -/
def reportToken (token subject : Bytes) : Build Unit :=
  unresolved subject (bytes "reference '" ++ token ++ bytes "' does not resolve to a schema")

/-- The schema that a token refers to. A token without one is reported for `subject`. -/
def resolve (index : Index) (token subject : Bytes) : Build NamedSchema :=
  match index.resolve? token with
  | some s => return s
  | none => do
    reportToken token subject
    throw .unresolvedReference

/-- As many references may be followed one after the other. -/
def maxHops : Nat := 64

def followFrom (index : Index) (subject : Bytes) : (hops : Nat) → NamedSchema → Build NamedSchema
  | hops, s =>
    match s.schema, hops with
    | .reference _ token, hops + 1 => do
      followFrom index subject hops (← resolve index token subject)
    | .reference _ token, 0 => do
      unresolved subject
        (bytes "reference chain through '" ++ token ++ bytes "' never reaches a schema")
      throw .unresolvedReference
    | _, _ => return s

/-- The first schema along a chain of references that is no reference. -/
def follow (index : Index) (s : NamedSchema) (subject : Bytes) : Build NamedSchema :=
  followFrom index subject maxHops s

/-- Reports a token of an owner if it does not resolve, and says whether it does. -/
def checkToken (index : Index) (owner token : Bytes) : Build Bool :=
  match index.resolve? token with
  | some _ => return true
  | none => do
    reportToken token owner
    return false

def checkTokens (index : Index) (owner : Bytes) : List Bytes → Build Bool
  | [] => return true
  | token :: rest => do
    let first ← checkToken index owner token
    let others ← checkTokens index owner rest
    return first && others

mutual
/-- Resolves every reference in a schema. One that fails does not keep the others from being
resolved. -/
def checkTree (index : Index) (owner : Bytes) : Schema → Build Bool
  | .reference _ token => checkToken index owner token
  | .array _ (some items) => checkTree index owner items
  | .object _ properties _ (.each extra) => do
    let first ← checkProperties index owner properties
    let second ← checkTree index owner extra
    return first && second
  | .object _ properties _ _ => checkProperties index owner properties
  | .allOf _ members => checkMembers index owner members
  | .union _ _ members discriminator => do
    let first ← checkMembers index owner members
    let second ← checkTokens index owner (Discriminator.tokens discriminator)
    return first && second
  | .primitive _ | .enumeration _ _ | .array _ none => return true

def checkMembers (index : Index) (owner : Bytes) : List Schema → Build Bool
  | [] => return true
  | member :: rest => do
    let first ← checkTree index owner member
    let others ← checkMembers index owner rest
    return first && others

def checkProperties (index : Index) (owner : Bytes) : List (Bytes × Schema) → Build Bool
  | [] => return true
  | (_, property) :: rest => do
    let first ← checkTree index owner property
    let others ← checkProperties index owner rest
    return first && others
end

def checkSchemas (index : Index) : List NamedSchema → Build Bool
  | [] => return true
  | s :: rest => do
    let first ← checkTree index s.name s.schema
    let others ← checkSchemas index rest
    return first && others

/-- Resolves every reference of every named schema. -/
def checkAll (index : Index) : Build Unit := do
  if ← checkSchemas index index.named then return else throw .unresolvedReference

end Build

end HeaderForge
