/-!
# Log lines

What an operation tells about its work. Lines are values: an operation and its account of itself
are two functions of the same input, so results never depend on who listens.
-/

namespace JoinGraph

/-- Severity of a log line. -/
inductive LogLevel where
  | error
  | warn
  | info
  | debug
deriving DecidableEq

/-- The word for a level. -/
def LogLevel.word : LogLevel → String
  | error => "error"
  | warn => "warn"
  | info => "info"
  | debug => "debug"

/-- One line of a log. -/
structure LogLine where
  /-- The severity. -/
  level : LogLevel
  /-- The text. -/
  text : String
deriving DecidableEq

/-- A line about a detail of the work. -/
def LogLine.debug (text : String) : LogLine := ⟨.debug, text⟩

end JoinGraph
