import HeaderForge.CommandLine
import HeaderForge.Files.Changes
/-!
# The program

Reads the files that a call may touch, runs the command line on them, prints what it prints and
writes back what it changed.
-/

namespace HeaderForge

namespace Main

def ofString (s : String) : Bytes := s.toUTF8.toList

def toBytes (t : Bytes) : ByteArray := ⟨t.toArray⟩

/-- The name that bytes spell. The file system of the platform has no others. -/
def toName (t : Bytes) : String := (String.fromUTF8? (toBytes t)).getD ""

/-! ## Reading -/

/-- Adds the folders on the way to a place, and the place. -/
def addFolders (t : FileTree) (p : Place) : FileTree :=
  ((List.range (p.length + 1)).map p.take).foldl
    (fun t q => if (t.at? q).isSome then t else t.put q (.folder [])) t

/-- Adds a file, or a folder with what is in it. Folders that no search enters are added empty. -/
partial def loadEntry (t : FileTree) (folder : Place) (e : IO.FS.DirEntry) : IO FileTree := do
  let name := ofString e.fileName
  let p := folder ++ [name]
  if ← e.path.isDir then
    let t := addFolders t p
    if name ∈ passedOver then return t
    else (← e.path.readDir).foldlM (fun t inner => loadEntry t p inner) t
  else
    try return t.put p (.file (← IO.FS.readBinFile e.path).toList)
    catch _ => return t

/-- Adds what a path of the call leads to, wherever that is. -/
def loadPath (t : FileTree) (path : Bytes) : IO FileTree := do
  let e : IO.FS.DirEntry := ⟨".", toName path⟩
  let p := FileTree.lexical (t.startOf path) (Path.names path)
  if ← e.path.isDir then
    (← e.path.readDir).foldlM (fun t inner => loadEntry t p inner) (addFolders t p)
  else
    try return (addFolders t p.dropLast).put p (.file (← IO.FS.readBinFile e.path).toList)
    catch _ => return t

/-- The files of the working folder and of every path that the call names. -/
def loadTree (arguments : List Bytes) : IO FileTree := do
  let here := (Path.names (ofString (← IO.currentDir).toString)).filter fun name => !name.isEmpty
  let t ← loadPath (addFolders ⟨here, []⟩ here) (bytes ".")
  let t ← (CommandLine.namedPaths arguments).foldlM loadPath t
  (CommandLine.configuredPaths arguments t).foldlM loadPath t

partial def readAll (s : IO.FS.Stream) (soFar : Bytes) : IO Bytes := do
  let chunk ← s.read 65536
  if chunk.isEmpty then return soFar else readAll s (soFar ++ chunk.toList)

/-! ## Writing -/

def apply (changes : FileChanges) : IO Unit := do
  for path in changes.gone.reverse do
    let name := toName (Path.slash :: path)
    if path.getLast? = some Path.slash then IO.FS.removeDir name else IO.FS.removeFile name
  for (path, e) in changes.written do
    let name := toName (Path.slash :: path)
    match e with
    | none => IO.FS.createDirAll name
    | some text => IO.FS.writeBinFile name (toBytes text)

/-- The tree seen from the root. -/
def fromRoot (t : FileTree) : FileTree := { t with base := [] }

def call (arguments : List Bytes) : IO UInt32 := do
  let tree ← loadTree arguments
  let stdin ← if bytes "-" ∈ arguments then readAll (← IO.getStdin) [] else pure []
  let outcome := CommandLine.run arguments stdin tree
  apply (FileChanges.between (fromRoot tree) (fromRoot outcome.tree))
  (← IO.getStdout).write (toBytes outcome.out)
  (← IO.getStderr).write (toBytes outcome.err)
  return outcome.exitCode.toUInt32

end Main

end HeaderForge

def main (arguments : List String) : IO UInt32 :=
  HeaderForge.Main.call (arguments.map HeaderForge.Main.ofString)
