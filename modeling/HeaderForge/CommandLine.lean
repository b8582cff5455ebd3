import HeaderForge.CommandLine.Options
import HeaderForge.CommandLine.Texts
import HeaderForge.Run
/-!
# The command line

One call of the program: from its arguments, its standard input and the files to what it prints, its
exit code and the files afterwards.

1. `Project.findConfig`, `Project.loadConfig` and `Project.loadIndex` read the files of a project.
2. `CommandLine.run` is the program.
-/

namespace HeaderForge

/-! ## Files of a project -/

namespace Project

def configNames : List Bytes := ["schemagen.yaml", "schemagen.yml", "schemagen.json"].map bytes

/-- The configuration file of a project, if it has one. -/
def findConfig (t : FileTree) (folder : Bytes) : Option Bytes :=
  (configNames.map (Path.child folder)).find? t.isFile

def loadConfig (t : FileTree) (path : Bytes) : Except Failure Config :=
  match t.read path with
  | .error _ => .error ⟨.configInvalid, bytes "cannot read " ++ path⟩
  | .ok text =>
    (Config.read text).mapError fun f => { f with detail := path ++ bytes ": " ++ f.detail }

def isWebAddress (path : Bytes) : Bool :=
  Bytes.startsWith path (bytes "http://") || Bytes.startsWith path (bytes "https://")

/-- Indexes the document of a file, or of standard input for `-`. -/
def loadIndex (t : FileTree) (stdin path : Bytes) : Except Failure Index :=
  if isWebAddress path then
    .error ⟨.inputUnreadable, bytes "a URL is not a file path; fetch it and use load_from_string"⟩
  else if path = bytes "-" then Index.read stdin
  else
    match t.read path with
    | .ok text => Index.read text
    | .error _ => .error ⟨.inputUnreadable, bytes "cannot open " ++ path⟩

end Project

namespace CommandLine

/-! ## Settings and documents -/

def configTag : Bytes := bytes "config"

/-- What is said about a failure. -/
def explain (f : Failure) : Bytes :=
  let message :=
    match f.kind with
    | .parseError => bytes "failed to parse API description"
    | .unsupportedDialect =>
      bytes "unsupported API description (expected swagger 2.0 or openapi 3.x)"
    | kind => kind.message
  if f.detail.isEmpty then message else message ++ bytes ": " ++ f.detail

def given (o : Options) : Config.Given where
  style := o.style
  outputDir := o.output
  projectDir := o.projectDir
  targetNamespace := o.targetNamespace
  force := if o.force then some true else none
  logLevel := if o.verbose then some .verbose else if o.quiet then some .quiet else none

/-- The settings of the configuration file that is named or found. -/
def fileConfig (o : Options) : Work Config := do
  let t ← Work.tree
  match o.config.or (Project.findConfig t (o.projectDir.getD (bytes "."))) with
  | none => return Config.standard
  | some path =>
    match Project.loadConfig t path with
    | .error f => Work.fail f.kind configTag (explain f)
    | .ok c =>
      Work.detail configTag (bytes "loaded " ++ path)
      return c

/-- The settings of a call. -/
def resolveConfig (o : Options) : Work Config := do
  let c := (← fileConfig o).given (given o)
  if isNamespace c.targetNamespace then return c
  else Work.fail .configInvalid configTag (bytes "invalid namespace: " ++ c.targetNamespace)

/-- The document of a call. -/
def openIndex (o : Options) (stdin : Bytes) : Work Index := do
  if o.input.isEmpty then Work.fail .inputUnreadable Run.tag (bytes "input spec is required")
  else
    match Project.loadIndex (← Work.tree) stdin o.input with
    | .error f => Work.fail f.kind Run.tag (row [o.input, ": ", explain f])
    | .ok index =>
      Work.detail Run.tag
        (row [index.dialect.text, " ", index.version, ", ", natText index.named.length,
          " schema(s)"])
      return index

/-! ## Subcommands -/

def selectStyle (name : Bytes) : Work Style :=
  match Style.select Style.all name with
  | .ok style => return style
  | .error kind =>
    Work.fail kind Run.tag
      (row ["unknown style: ", name, " (expected: ", Bytes.join "|" (Style.all.map Style.name),
        ")"])

/-- Generates headers. A step returns the exit code. -/
def generate (o : Options) (stdin : Bytes) (c : Config) : Work Nat := do
  let style ← selectStyle c.style
  let index ← openIndex o stdin
  return (← Run.generate c style index).exitCode

/-- Only lints. -/
def lint (o : Options) (stdin : Bytes) (c : Config) : Work Nat := do
  let index ← openIndex o stdin
  let found := Lint.run index c.lint
  Run.logAll (found.map Run.lintLine)
  let summary :=
    row ["schemas=", natText index.named.length, ", errors=", natText (found.count .error),
      ", warnings=", natText (found.length - found.count .error)]
  if found.hasErrors then
    Work.error (bytes "lint") (bytes "FAILED: " ++ summary)
    return 1
  else
    Work.info (bytes "lint") (bytes "OK: " ++ summary)
    return 0

def stylesText : Bytes :=
  Bytes.unlines (Style.all.map fun s => row [s.name, "\t", s.summary])

/-! ## Calls -/

/-- What a call leaves. -/
structure Outcome where
  exitCode : Nat
  out : Bytes
  err : Bytes
  tree : FileTree

def Outcome.usage (complaint : Bytes) (t : FileTree) : Outcome :=
  ⟨1, CommandLine.usage, complaint, t⟩

/-- Runs a subcommand under its settings. Until they are known the log is shown at the normal
level. -/
def runConfigured (o : Options) (command : Config → Work Nat) (t : FileTree) : Outcome :=
  let (config, w) := (resolveConfig o).run.run ⟨t, .empty⟩
  let out := w.log.out .normal
  let err := w.log.err .normal
  match config with
  | .error _ => ⟨1, out, err, w.tree⟩
  | .ok c =>
    let (code, w) := (command c).run.run ⟨w.tree, .empty⟩
    ⟨code.toOption.getD 1, out ++ w.log.out c.logLevel, err ++ w.log.err c.logLevel, w.tree⟩

/-- One call of the program. -/
def run (arguments : List Bytes) (stdin : Bytes) (t : FileTree) : Outcome :=
  match Options.read arguments with
  | .error (.usage complaint) => .usage complaint t
  | .error .examples => ⟨0, examples, [], t⟩
  | .ok o =>
    if o.subcommand = bytes "generate" then runConfigured o (generate o stdin) t
    else if o.subcommand = bytes "lint" then runConfigured o (lint o stdin) t
    else if o.subcommand = bytes "styles" then ⟨0, stylesText, [], t⟩
    else .usage (row ["Unknown subcommand: ", o.subcommand, "\n"]) t

/-! ## Paths of a call -/

/-- The paths that the arguments name. -/
def namedPaths (arguments : List Bytes) : List Bytes :=
  match Options.read arguments with
  | .error _ => []
  | .ok o =>
    (o.input :: (o.config.toList ++ o.projectDir.toList ++ o.output.toList)).filter fun path =>
      !path.isEmpty

/-- The paths that the settings of a call name. -/
def configuredPaths (arguments : List Bytes) (t : FileTree) : List Bytes :=
  match Options.read arguments with
  | .error _ => []
  | .ok o =>
    match ((resolveConfig o).run.run ⟨t, .empty⟩).1 with
    | .error _ => []
    | .ok c => [c.projectDir, c.outputDir]

end CommandLine

end HeaderForge
