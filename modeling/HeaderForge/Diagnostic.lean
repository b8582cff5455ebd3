import HeaderForge.Bytes
/-!
# Diagnostics

Findings of one run, in the order of their arrival. A finding at severity `off` is dropped when it
arrives, so nothing that is kept is switched off.
-/

namespace HeaderForge

inductive Severity where
  | off
  | warning
  | error
deriving DecidableEq, Repr

namespace Severity

def text : Severity → Bytes
  | off => bytes "off"
  | warning => bytes "warning"
  | error => bytes "error"

def parse? (t : Bytes) : Option Severity :=
  if t = bytes "off" then some off
  else if t = bytes "warning" || t = bytes "warn" then some warning
  else if t = bytes "error" then some error
  else none

end Severity

structure Diagnostic where
  rule : Bytes
  level : Severity
  subject : Bytes
  message : Bytes
deriving DecidableEq, Repr

/-- The findings so far. -/
abbrev Diagnostics := List Diagnostic

namespace Diagnostics

def report (found : Diagnostics) (d : Diagnostic) : Diagnostics :=
  if d.level = .off then found else found ++ [d]

def count (found : Diagnostics) (level : Severity) : Nat :=
  (found.filter fun d => d.level = level).length

def hasErrors (found : Diagnostics) : Bool := found.count .error != 0

/-- Whether a rule has findings. -/
def mentions (found : Diagnostics) (rule : Bytes) : Bool := found.any fun d => d.rule = rule

end Diagnostics

end HeaderForge
