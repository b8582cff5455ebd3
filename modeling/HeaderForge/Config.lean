import HeaderForge.Class.Overrides
import HeaderForge.Document.Printer
import HeaderForge.Document.Reader
import HeaderForge.Failure
import HeaderForge.Lint
import HeaderForge.Log
/-!
# Configuration

What a run is told beside the document. A configuration document changes the settings key by key in
the order in which it is written; keys that mean nothing are passed over, and a value of a wrong
form stops it, with what came before already changed.

1. `isNamespace` says which texts are C++ namespaces.
2. `Config.apply` applies a document, and `Config.read` a text to the defaults.
3. `Config.fingerprint` is the part of the settings that shapes the output, as one text.
-/

namespace HeaderForge

structure Config where
  style : Bytes
  outputDir : Bytes
  projectDir : Bytes
  targetNamespace : Bytes
  useJsonKey : Bool
  generateDocs : Bool
  incremental : Bool
  force : Bool
  logLevel : LogLevel
  lint : LintConfig
  /-- From schema names to their overrides, in the order of the names. -/
  schemas : List (Bytes × SchemaOverride)
deriving DecidableEq, Repr

/-! ## Namespaces -/

/-- Whether a text is one segment of a namespace. -/
def isSegment (t : Bytes) : Bool :=
  match t with
  | [] => false
  | b :: rest => (Byte.isLetter b || b == byte '_') && rest.all Byte.isWord

/-- The pieces of a text between pairs of colons. -/
def splitColons : Bytes → List Bytes
  | [] => [[]]
  | [b] => [[b]]
  | b :: c :: rest =>
    if b == byte ':' && c == byte ':' then [] :: splitColons rest
    else
      match splitColons (c :: rest) with
      | [] => [[b]]
      | first :: others => (b :: first) :: others

/-- Whether a text is a C++ namespace. The empty text is the global one. -/
def isNamespace (t : Bytes) : Bool := t.isEmpty || (splitColons t).all isSegment

namespace Config

def standard : Config where
  style := bytes "plain"
  outputDir := bytes "generated"
  projectDir := bytes "."
  targetNamespace := bytes "models"
  useJsonKey := false
  generateDocs := true
  incremental := true
  force := false
  logLevel := .normal
  lint := LintConfig.standard
  schemas := []

def modelSettings (c : Config) : ModelSettings := ⟨c.useJsonKey, c.schemas⟩

/-! ## Applying documents -/

/-- A step changes the settings and may be stopped by what is wrong with a value. -/
abbrev Step := ExceptT Bytes (StateM Config)

def quoted (key rest : Bytes) : Bytes := byte '\'' :: key ++ byte '\'' :: rest

def expectString (key : Bytes) (n : Node) : Step Bytes :=
  match n with
  | .str value => return value
  | _ => throw (quoted key (bytes " must be a string"))

/-- A truth value, or the string that spells it. -/
def expectBool (key : Bytes) (n : Node) : Step Bool :=
  match n.toBool? with
  | some value => return value
  | none => throw (quoted key (bytes " must be true or false"))

def expectEntries (key : Bytes) (n : Node) : Step (List (Bytes × Node)) :=
  match n with
  | .obj entries => return entries
  | _ => throw (quoted key (bytes " must be a mapping"))

/-- Whether a node is a string, a number or a truth value. -/
def isScalar : Node → Bool
  | .str _ | .num _ | .bool _ => true
  | _ => false

/-- Does something with the text of every scalar of a mapping. -/
def forScalars (key : Bytes) (store : Bytes → Bytes → Step Unit) :
    List (Bytes × Node) → Step Unit
  | [] => return
  | (entry, n) :: rest => do
    if isScalar n then
      store entry n.scalarText
      forScalars key store rest
    else throw (quoted (key ++ byte '.' :: entry) (bytes " must be a scalar"))

/-- The severity that is given for a rule. -/
def ruleLevel (rule : Bytes) (n : Node) : Step Severity := do
  let level ←
    match n with
    | .str level => pure level
    | .obj _ => pure ((n.stringAt? (bytes "severity")).getD (bytes "warning"))
    | _ => throw (bytes "lint rule " ++ quoted rule (bytes " expects a severity"))
  match Severity.parse? level with
  | some severity => return severity
  | none =>
    throw (bytes "unknown severity " ++ quoted level (bytes " for lint rule ") ++
      quoted rule (bytes " (expected off, warning or error)"))

def applyRules : List (Bytes × Node) → Step Unit
  | [] => return
  | (name, n) :: rest => do
    match LintRule.parse? name with
    | none => throw (bytes "unknown lint rule " ++ quoted name [])
    | some rule =>
      let severity ← ruleLevel name n
      modify fun c => { c with lint := c.lint.set rule severity }
      applyRules rest

/-- The rules of a lint section that is not switched off. -/
def applyRuleSection (n : Node) : Step Unit := do
  match n.find? (bytes "rules") with
  | none => return
  | some rules => applyRules (← expectEntries (bytes "lint.rules") rules)

def applyLint (n : Node) : Step Unit := do
  let _ ← expectEntries (bytes "lint") n
  match n.find? (bytes "enabled") with
  | none => applyRuleSection n
  | some enabled =>
    if ← expectBool (bytes "lint.enabled") enabled then applyRuleSection n
    else modify fun c => { c with lint := LintConfig.disabled }

/-- Changes what is said about a schema, which counts as mentioned from then on. -/
def modifySchema (name : Bytes) (f : SchemaOverride → SchemaOverride) : Step Unit :=
  modify fun c =>
    { c with schemas := putSorted name (f ((c.schemas.lookup name).getD .none)) c.schemas }

/-- Does something with the value at a key, if there is one. -/
def atKey (n : Node) (context key : Bytes) (f : Bytes → Node → Step Unit) : Step Unit :=
  match n.find? key with
  | some value => f (context ++ byte '.' :: key) value
  | none => return

def applySchema (name : Bytes) (n : Node) : Step Unit := do
  let context := bytes "schemas." ++ name
  modifySchema name id
  let _ ← expectEntries context n
  atKey n context (bytes "className") fun key value => do
    let className ← expectString key value
    modifySchema name fun o => { o with className := some className }
  atKey n context (bytes "fieldNames") fun key value => do
    forScalars key
      (fun entry text =>
        modifySchema name fun o => { o with fieldNames := putSorted entry text o.fieldNames })
      (← expectEntries key value)
  atKey n context (bytes "typeMapping") fun key value => do
    forScalars key
      (fun entry text =>
        modifySchema name fun o => { o with typeMapping := putSorted entry text o.typeMapping })
      (← expectEntries key value)
  atKey n context (bytes "useJsonKey") fun key value => do
    let useJsonKey ← expectBool key value
    modifySchema name fun o => { o with useJsonKey := some useJsonKey }

def applySchemas : List (Bytes × Node) → Step Unit
  | [] => return
  | (name, n) :: rest => do
    applySchema name n
    applySchemas rest

def applyNamespace (key : Bytes) (n : Node) : Step Unit := do
  let value ← expectString key n
  if isNamespace value then modify fun c => { c with targetNamespace := value }
  else throw (quoted key (bytes " is not a C++ namespace: ") ++ value)

def applyLogLevel (key : Bytes) (n : Node) : Step Unit := do
  match LogLevel.parse? (← expectString key n) with
  | some level => modify fun c => { c with logLevel := level }
  | none => throw (quoted key (bytes " must be quiet, normal or verbose"))

/-- What each key of a configuration document does. -/
def applyKey (key : Bytes) (n : Node) : Step Unit := do
  if key = bytes "style" || key = bytes "defaultStyle" then
    let value ← expectString key n
    modify fun c => { c with style := value }
  else if key = bytes "outputDir" then
    let value ← expectString key n
    modify fun c => { c with outputDir := value }
  else if key = bytes "projectDir" then
    let value ← expectString key n
    modify fun c => { c with projectDir := value }
  else if key = bytes "namespace" then applyNamespace key n
  else if key = bytes "useJsonKey" then
    let value ← expectBool key n
    modify fun c => { c with useJsonKey := value }
  else if key = bytes "generateDocs" then
    let value ← expectBool key n
    modify fun c => { c with generateDocs := value }
  else if key = bytes "incremental" then
    let value ← expectBool key n
    modify fun c => { c with incremental := value }
  else if key = bytes "logLevel" then applyLogLevel key n
  else if key = bytes "lint" then applyLint n
  else if key = bytes "schemas" then applySchemas (← expectEntries key n)
  else return

def applyKeys : List (Bytes × Node) → Step Unit
  | [] => return
  | (key, n) :: rest => do
    applyKey key n
    applyKeys rest

/-- An empty document changes nothing. -/
def applyDocument (n : Node) : Step Unit :=
  match n with
  | .null => return
  | .obj entries => applyKeys entries
  | _ => throw (bytes "configuration must be a mapping")

/-- The settings after a document, and what was wrong with it if it was stopped. -/
def apply (c : Config) (n : Node) : Option Failure × Config :=
  let (outcome, changed) := (applyDocument n).run.run c
  match outcome with
  | .ok () => (none, changed)
  | .error detail => (some ⟨.configInvalid, detail⟩, changed)

/-- The settings that a text gives. -/
def read (t : Bytes) : Except Failure Config := do
  let n ← (Document.read t).mapError fun detail => ⟨.configInvalid, detail⟩
  match standard.apply n with
  | (none, c) => return c
  | (some failure, _) => throw failure

/-! ## Settings from the command line -/

/-- Settings that replace those of the configuration where they are given. -/
structure Given where
  style : Option Bytes
  outputDir : Option Bytes
  projectDir : Option Bytes
  targetNamespace : Option Bytes
  force : Option Bool
  logLevel : Option LogLevel
deriving DecidableEq, Repr

def Given.nothing : Given := ⟨none, none, none, none, none, none⟩

def given (c : Config) (g : Given) : Config :=
  { c with
    style := g.style.getD c.style
    outputDir := g.outputDir.getD c.outputDir
    projectDir := g.projectDir.getD c.projectDir
    targetNamespace := g.targetNamespace.getD c.targetNamespace
    force := g.force.getD c.force
    logLevel := g.logLevel.getD c.logLevel }

/-! ## Fingerprints -/

def flag (b : Bool) : Bytes := if b then bytes "1" else bytes "0"

def pairsText (link : UInt8) (pairs : List (Bytes × Bytes)) : Bytes :=
  pairs.flatMap fun (key, value) => byte ',' :: key ++ link :: value

def overrideText (name : Bytes) (o : SchemaOverride) : Bytes :=
  bytes ";schema=" ++ name ++ byte ':' :: o.className.getD [] ++
    pairsText (byte '>') o.fieldNames ++ pairsText (byte '=') o.typeMapping ++
    match o.useJsonKey with
    | some useJsonKey => bytes ",json_key=" ++ flag useJsonKey
    | none => []

/-- The settings that shape what is generated in a style. -/
def fingerprint (c : Config) (style : Bytes) : Bytes :=
  bytes "backend=" ++ style ++ bytes ";ns=" ++ c.targetNamespace ++ bytes ";docs=" ++
    flag c.generateDocs ++ bytes ";json_key=" ++ flag c.useJsonKey ++
    c.schemas.flatMap fun (name, o) => overrideText name o

end Config

end HeaderForge
