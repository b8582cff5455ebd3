import HeaderForge.Diagnostic
import HeaderForge.Schema.Reference
/-!
# Linting

Heuristic checks of the named schemas. Every rule has a severity of its own; a rule that is off
finds nothing. The checks read the index only, so they cannot change what is generated.

A broken reference is found once, where it is met first.
-/

namespace HeaderForge

inductive LintRule where
  | missingType
  | suspiciousIdField
  | missingRefTarget
  | typeInconsistency
  | emptyObject
  | arrayWithoutItems
  | emptyEnum
deriving DecidableEq, Repr

namespace LintRule

def all : List LintRule :=
  [missingType, suspiciousIdField, missingRefTarget, typeInconsistency, emptyObject,
    arrayWithoutItems, emptyEnum]

def text : LintRule → Bytes
  | missingType => bytes "missing_type"
  | suspiciousIdField => bytes "suspicious_id_field"
  | missingRefTarget => bytes "missing_ref_target"
  | typeInconsistency => bytes "type_inconsistency"
  | emptyObject => bytes "empty_object"
  | arrayWithoutItems => bytes "array_without_items"
  | emptyEnum => bytes "empty_enum"

/-- Case does not matter, and a hyphen stands for an underscore. -/
def parse? (t : Bytes) : Option LintRule :=
  let normal := t.map fun b => if b == byte '-' then byte '_' else Byte.toLower b
  all.find? fun rule => rule.text = normal

/-- A reference without a target is an error, and everything else a warning. -/
def defaultSeverity : LintRule → Severity
  | missingRefTarget => .error
  | _ => .warning

end LintRule

/-- The severity of every rule. -/
structure LintConfig where
  missingType : Severity
  suspiciousIdField : Severity
  missingRefTarget : Severity
  typeInconsistency : Severity
  emptyObject : Severity
  arrayWithoutItems : Severity
  emptyEnum : Severity
deriving DecidableEq, Repr

namespace LintConfig

def ofLevels (level : LintRule → Severity) : LintConfig where
  missingType := level .missingType
  suspiciousIdField := level .suspiciousIdField
  missingRefTarget := level .missingRefTarget
  typeInconsistency := level .typeInconsistency
  emptyObject := level .emptyObject
  arrayWithoutItems := level .arrayWithoutItems
  emptyEnum := level .emptyEnum

def standard : LintConfig := ofLevels LintRule.defaultSeverity
def disabled : LintConfig := ofLevels fun _ => .off

def level (c : LintConfig) : LintRule → Severity
  | .missingType => c.missingType
  | .suspiciousIdField => c.suspiciousIdField
  | .missingRefTarget => c.missingRefTarget
  | .typeInconsistency => c.typeInconsistency
  | .emptyObject => c.emptyObject
  | .arrayWithoutItems => c.arrayWithoutItems
  | .emptyEnum => c.emptyEnum

def set (c : LintConfig) (rule : LintRule) (severity : Severity) : LintConfig :=
  ofLevels fun r => if r = rule then severity else c.level r

end LintConfig

namespace Lint

/-- What a rule finds about a named schema, before its severity is known. -/
structure Finding where
  rule : LintRule
  subject : Bytes
  message : Bytes
deriving DecidableEq, Repr

/-! ## References -/

/-- References are looked for this many levels below a named schema. -/
def maxDepth : Nat := 64

/-- A token is found if it designates no schema and has not been found before. -/
def checkReference (index : Index) (known : List Bytes) (token : Bytes) : List Bytes :=
  if (index.resolve? token).isSome then []
  else if token ∈ known then []
  else [token]

/-- The tokens that are found anew among some, where those in `known` have been found before. -/
def checkTokens (index : Index) : (known : List Bytes) → List Bytes → List Bytes
  | _, [] => []
  | known, token :: rest =>
    let found := checkReference index known token
    found ++ checkTokens index (known ++ found) rest

mutual
/-- The tokens that are found anew in a schema at the given depth, in the order in which they are
met. -/
def checkReferences (index : Index) (depth : Nat) (known : List Bytes) (s : Schema) : List Bytes :=
  if depth > maxDepth then []
  else
    match s with
    | .reference _ token => checkReference index known token
    | .array _ (some items) => checkReferences index (depth + 1) known items
    | .object _ properties _ (.each extra) =>
      let found := checkPropertyTypes index (depth + 1) known properties
      found ++ checkReferences index (depth + 1) (known ++ found) extra
    | .object _ properties _ _ => checkPropertyTypes index (depth + 1) known properties
    | .allOf _ members => checkMembers index (depth + 1) known members
    | .union _ _ members discriminator =>
      let found := checkMembers index (depth + 1) known members
      found ++ checkTokens index (known ++ found) (Discriminator.tokens discriminator)
    | .primitive _ | .enumeration _ _ | .array _ none => []

def checkMembers (index : Index) (depth : Nat) (known : List Bytes) : List Schema → List Bytes
  | [] => []
  | member :: rest =>
    let found := checkReferences index depth known member
    found ++ checkMembers index depth (known ++ found) rest

def checkPropertyTypes (index : Index) (depth : Nat) (known : List Bytes) :
    List (Bytes × Schema) → List Bytes
  | [] => []
  | (_, property) :: rest =>
    let found := checkReferences index depth known property
    found ++ checkPropertyTypes index depth (known ++ found) rest
end

def brokenReference (owner token : Bytes) : Finding :=
  ⟨.missingRefTarget, owner,
    bytes "reference '" ++ token ++ bytes "' in " ++ owner ++ bytes " has no target schema"⟩

/-! ## Properties and shapes -/

def looksLikeId (key : Bytes) : Bool :=
  key = bytes "id" || Bytes.endsWith key (bytes "_id") || Bytes.endsWith key (bytes "Id")

/-- What a format that does not go with its number type is called. -/
def formatProblem? (info : SchemaInfo) : Option Bytes :=
  if info.format.isEmpty then none
  else
    match info.primitive with
    | .integer =>
      if info.format = bytes "int32" || info.format = bytes "int64" then none
      else some (bytes " is an integer with format '" ++ info.format ++ bytes "'")
    | .number =>
      if info.format = bytes "float" || info.format = bytes "double" then none
      else
        some (bytes " is a number with format '" ++ info.format ++
          bytes "'; only float and double apply")
    | _ => none

/-- What is found about the type of a property. -/
def typeProblem? : Schema → Option (LintRule × Bytes)
  | .primitive info =>
    if info.hasType then none
    else
      some (.missingType, bytes " has neither a type nor a $ref; it maps to nlohmann::json")
  | _ => none

def formatFinding? : Schema → Option (LintRule × Bytes)
  | .primitive info => (formatProblem? info).map fun problem => (.typeInconsistency, problem)
  | _ => none

def itemsProblem? : Schema → Option (LintRule × Bytes)
  | .array _ none =>
    some (.arrayWithoutItems, bytes " is an array without items; elements map to nlohmann::json")
  | _ => none

def idProblem? (required : List Bytes) (key : Bytes) (s : Schema) : Option (LintRule × Bytes) :=
  if looksLikeId key && !s.info.nullable && !required.contains key then
    some (.suspiciousIdField,
      bytes " looks like an identifier but is neither required nor nullable")
  else none

def checkProperty (owner : Bytes) (required : List Bytes) (key : Bytes) (s : Schema) :
    List Finding :=
  ([typeProblem? s, idProblem? required key s, formatFinding? s, itemsProblem? s].filterMap id).map
    fun (rule, problem) =>
      ⟨rule, owner, bytes "property '" ++ key ++ bytes "' of " ++ owner ++ problem⟩

def checkProperties (owner : Bytes) (properties : List (Bytes × Schema)) (required : List Bytes) :
    List Finding :=
  properties.flatMap fun (key, s) => checkProperty owner required key s

def checkMember (owner : Bytes) : Schema → List Finding
  | .object _ properties required _ => checkProperties owner properties required
  | _ => []

/-- What is found about a named schema itself. -/
def checkShape (s : NamedSchema) : List Finding :=
  match s.schema with
  | .enumeration _ ⟨[], _, _⟩ =>
    [⟨.emptyEnum, s.name, bytes "enum " ++ s.name ++ bytes " has no values"⟩]
  | .object info properties required extra =>
    (if (Schema.object info properties required extra).isEmptyObject then
      [⟨.emptyObject, s.name,
        bytes "schema " ++ s.name ++
          bytes " is an empty object (no properties, no additionalProperties)"⟩]
    else []) ++ checkProperties s.name properties required
  | .primitive info =>
    if info.hasType then []
    else
      [⟨.emptyObject, s.name,
        bytes "schema " ++ s.name ++ bytes " declares neither a type nor properties"⟩]
  | .array _ none =>
    [⟨.arrayWithoutItems, s.name,
      bytes "schema " ++ s.name ++
        bytes " is an array without items; elements map to nlohmann::json"⟩]
  | .allOf _ members => members.flatMap (checkMember s.name)
  | _ => []

/-! ## Runs -/

/-- The findings about schemas in order. Tokens in `known` have been found before. -/
def findings (index : Index) : (known : List Bytes) → List NamedSchema → List Finding
  | _, [] => []
  | known, s :: rest =>
    let broken := checkReferences index 0 known s.schema
    broken.map (brokenReference s.name) ++ checkShape s ++ findings index (known ++ broken) rest

/-- A finding with the severity of its rule. -/
def Finding.diagnostic (config : LintConfig) (f : Finding) : Diagnostic :=
  ⟨f.rule.text, config.level f.rule, f.subject, f.message⟩

/-- What the rules that are on find. -/
def run (index : Index) (config : LintConfig) : Diagnostics :=
  ((findings index [] index.named).map (Finding.diagnostic config)).foldl Diagnostics.report []

end Lint

end HeaderForge
