import HeaderForge.Bytes
/-!
# Log

Lines `[tag] message` on two streams. A log keeps every line whatever the level is; the level only
decides what is shown of it: errors at every level, warnings and progress from `normal` up, and
details at `verbose` only.

1. `LogKind.isShown` is that rule.
2. `Log.out` and `Log.err` are what the two streams show.
-/

namespace HeaderForge

inductive LogLevel where
  | quiet
  | normal
  | verbose
deriving DecidableEq, Repr

namespace LogLevel

def text : LogLevel → Bytes
  | quiet => bytes "quiet"
  | normal => bytes "normal"
  | verbose => bytes "verbose"

def parse? (t : Bytes) : Option LogLevel :=
  if t = bytes "quiet" then some quiet
  else if t = bytes "normal" then some normal
  else if t = bytes "verbose" then some verbose
  else none

end LogLevel

inductive LogKind where
  | detail
  | progress
  | warning
  | error
deriving DecidableEq, Repr

namespace LogKind

def isShown (level : LogLevel) : LogKind → Bool
  | detail => level = .verbose
  | progress | warning => level ≠ .quiet
  | error => true

/-- Whether lines of this kind go to standard error. -/
def isTrouble : LogKind → Bool
  | warning | error => true
  | detail | progress => false

end LogKind

structure LogLine where
  kind : LogKind
  tag : Bytes
  message : Bytes
deriving DecidableEq, Repr

def LogLine.text (l : LogLine) : Bytes :=
  byte '[' :: l.tag ++ bytes "] " ++ l.message ++ [byte '\n']

/-- The lines so far. -/
structure Log where
  /-- The lines from the newest one back. -/
  newest : List LogLine
deriving DecidableEq, Repr

namespace Log

def empty : Log := ⟨[]⟩

def lines (log : Log) : List LogLine := log.newest.reverse

def write (log : Log) (line : LogLine) : Log := ⟨line :: log.newest⟩

def writeAll (log : Log) (lines : List LogLine) : Log := lines.foldl write log

/-- What is shown of a log on one of the streams. -/
def stream (log : Log) (level : LogLevel) (trouble : Bool) : Bytes :=
  (log.lines.filter fun l => l.kind.isShown level && l.kind.isTrouble == trouble).flatMap
    LogLine.text

/-- What standard output shows. -/
def out (log : Log) (level : LogLevel) : Bytes := log.stream level false

/-- What standard error shows. -/
def err (log : Log) (level : LogLevel) : Bytes := log.stream level true

end Log

end HeaderForge
