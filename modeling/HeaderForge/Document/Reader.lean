import HeaderForge.Document.Json
import HeaderForge.Document.Yaml
/-!
# Reading documents

A document is JSON or YAML. Where the format is not given, the first significant byte decides: a
document that opens an object or an array is JSON, and everything else is YAML.
-/

namespace HeaderForge

inductive DocumentFormat where
  | json
  | yaml
deriving DecidableEq, Repr

namespace Document

/-- A text without a byte order mark. -/
def dropMark (t : Bytes) : Bytes := (Bytes.dropFront? [0xEF, 0xBB, 0xBF] t).getD t

def formatOf (t : Bytes) : DocumentFormat :=
  if Yaml.opensFlow (Bytes.trim (dropMark t)) then .json else .yaml

/-- Reads a document of the format that its text shows, or says what is wrong with it. Offsets
count from the first significant byte of a JSON text. -/
def read (t : Bytes) : Except Bytes Node :=
  match formatOf t with
  | .json => Json.read (Bytes.trim (dropMark t))
  | .yaml => Yaml.read (dropMark t)

end Document

end HeaderForge
