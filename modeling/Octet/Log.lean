/-!
Log entries: a level and a text.
-/

namespace Octet

/-- How severe a log entry is, most severe first. -/
inductive Level where
  | error
  | warn
  | info
  | debug
  | trace
deriving DecidableEq, Repr

namespace Level

/-- The position in the order of severity, the most severe being 0. -/
def rank : Level → Nat
  | error => 0
  | warn => 1
  | info => 2
  | debug => 3
  | trace => 4

/-- The name as log lines show it. -/
def name : Level → String
  | error => "ERROR"
  | warn => "WARN"
  | info => "INFO"
  | debug => "DEBUG"
  | trace => "TRACE"

/-- Whether an entry of level `l` is shown when `threshold` is the least severe level shown. -/
def isShown (threshold l : Level) : Bool := l.rank ≤ threshold.rank

end Level

/-- One log entry. -/
structure LogEntry where
  level : Level
  text : String
deriving DecidableEq, Repr

end Octet
