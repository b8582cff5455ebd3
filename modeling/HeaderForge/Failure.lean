import HeaderForge.Bytes
/-!
# Failures

Every operation that can be refused says why by one of twelve kinds. A kind has a fixed text and
a fixed code; what exactly was wrong goes into a detail next to it where there is more to say.
-/

namespace HeaderForge

inductive FailureKind where
  | inputUnreadable
  | parseError
  | unsupportedDialect
  | unresolvedReference
  | invalidUnion
  | missingVariantHandler
  | markerConflict
  | cacheCorrupt
  | cacheUnreadable
  | writeFailed
  | unknownBackend
  | configInvalid
deriving DecidableEq, Repr

namespace FailureKind

/-- The kinds in the order of their codes, which start at one. -/
def all : List FailureKind :=
  [inputUnreadable, parseError, unsupportedDialect, unresolvedReference, invalidUnion,
    missingVariantHandler, markerConflict, cacheCorrupt, cacheUnreadable, writeFailed,
    unknownBackend, configInvalid]

def message : FailureKind → Bytes
  | inputUnreadable => bytes "input document could not be read"
  | parseError => bytes "failed to parse document"
  | unsupportedDialect =>
    bytes "unsupported description dialect (expected swagger 2.0 or openapi 3.x)"
  | unresolvedReference => bytes "unresolved schema reference"
  | invalidUnion => bytes "invalid tagged union"
  | missingVariantHandler => bytes "variant dispatch is missing a handler"
  | markerConflict => bytes "generated region markers missing or ambiguous"
  | cacheCorrupt => bytes "cache record is corrupt"
  | cacheUnreadable => bytes "cache record could not be read"
  | writeFailed => bytes "failed to write file"
  | unknownBackend => bytes "unknown emission backend"
  | configInvalid => bytes "invalid configuration"

/-- The name of the family of codes. -/
def category : Bytes := bytes "schemagen"

/-- The text of a code: zero is success, and codes of no kind are unknown. -/
def messageOfCode : Int → Bytes
  | .ofNat 0 => bytes "success"
  | .ofNat (n + 1) => (all[n]?.map message).getD (bytes "unknown error")
  | .negSucc _ => bytes "unknown error"

end FailureKind

/-- A refusal together with what exactly was wrong. -/
structure Failure where
  kind : FailureKind
  detail : Bytes
deriving DecidableEq, Repr

end HeaderForge
