import HeaderForge.Bytes
/-!
# Options

What the arguments of the command line say. Reading them ends in options for a subcommand, in the
usage, possibly after a complaint, or in the examples.
-/

namespace HeaderForge

structure Options where
  subcommand : Bytes
  input : Bytes
  output : Option Bytes
  style : Option Bytes
  projectDir : Option Bytes
  config : Option Bytes
  targetNamespace : Option Bytes
  force : Bool
  verbose : Bool
  quiet : Bool
deriving DecidableEq, Repr

namespace Options

def ofSubcommand (subcommand : Bytes) : Options where
  subcommand := subcommand
  input := []
  output := none
  style := none
  projectDir := none
  config := none
  targetNamespace := none
  force := false
  verbose := false
  quiet := false

/-- What else the arguments may ask for. -/
inductive Stop where
  /-- The usage, after a complaint if there is one. -/
  | usage (complaint : Bytes)
  | examples
deriving DecidableEq, Repr

def isHelp (argument : Bytes) : Bool := argument = bytes "-h" || argument = bytes "--help"

/-- The effect of a switch. -/
def switch? (argument : Bytes) (o : Options) : Option Options :=
  if argument = bytes "--force" then some { o with force := true }
  else if argument = bytes "--verbose" then some { o with verbose := true }
  else if argument = bytes "--quiet" then some { o with quiet := true }
  else none

/-- The effect of an option that takes a value. -/
def setting? (argument : Bytes) : Option (Options → Bytes → Options) :=
  if argument = bytes "-i" || argument = bytes "--input" then
    some fun o value => { o with input := value }
  else if argument = bytes "-o" || argument = bytes "--output" then
    some fun o value => { o with output := some value }
  else if argument = bytes "--style" then some fun o value => { o with style := some value }
  else if argument = bytes "--project-dir" then
    some fun o value => { o with projectDir := some value }
  else if argument = bytes "--config" then some fun o value => { o with config := some value }
  else if argument = bytes "--namespace" then
    some fun o value => { o with targetNamespace := some value }
  else none

/-- Reads the arguments after the subcommand, the last one of a kind winning. -/
def readRest : Options → List Bytes → Except Stop Options
  | o, [] => .ok o
  | o, argument :: rest =>
    if isHelp argument then .error (.usage [])
    else
      match setting? argument, switch? argument o, rest with
      | some set, _, value :: rest => readRest (set o value) rest
      | some _, _, [] => .error (.usage [])
      | none, some o, rest => readRest o rest
      | none, none, _ => .error (.usage (bytes "Unknown argument: " ++ argument ++ bytes "\n"))

def checked (o : Options) : Except Stop Options :=
  if o.verbose && o.quiet then
    .error (.usage (bytes "--verbose and --quiet are mutually exclusive\n"))
  else .ok o

/-- Reads the arguments of the program. -/
def read (arguments : List Bytes) : Except Stop Options :=
  match arguments with
  | [] => .error (.usage [])
  | subcommand :: rest =>
    if isHelp subcommand then .error (.usage [])
    else if subcommand = bytes "examples" then .error .examples
    else do checked (← readRest (ofSubcommand subcommand) rest)

end Options

end HeaderForge
