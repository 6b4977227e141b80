import JoinGraph.Binding
import JoinGraph.Log
import JoinGraph.Vocabulary

/-!
# Diagnostics

What passes report. Reporting never fails and never changes what a pass does.
-/

namespace JoinGraph

/-- Severity of a diagnostic. -/
inductive Severity where
  /-- No action is required. -/
  | info
  /-- Worth a review. -/
  | warning
  /-- Likely a mistake of the caller. -/
  | error
deriving DecidableEq, Repr

namespace Severity

instance : Vocabulary Severity where
  word
    | info => "info"
    | warning => "warning"
    | error => "error"
  all := [info, warning, error]
  find_word a := by cases a <;> rfl

/-- Position in the order of severities. -/
def rank : Severity → Nat
  | info => 0
  | warning => 1
  | error => 2

/-- The severities below one, in order. -/
def below (s : Severity) : List Severity :=
  (Vocabulary.all : List Severity).filter fun t => decide (t.rank < s.rank)

/-- The level at which a diagnostic is logged. -/
def logLevel : Severity → LogLevel
  | info => .info
  | warning => .warn
  | error => .error

end Severity

/-- Code of a diagnostic. -/
inductive DiagnosticCode where
  /-- An expression node that the analysis does not understand. -/
  | q001
  /-- A reference to what is not in the query. -/
  | q002
  /-- A join that was removed as dead. -/
  | q003
deriving DecidableEq, Repr

instance : Vocabulary DiagnosticCode where
  word
    | .q001 => "Q001"
    | .q002 => "Q002"
    | .q003 => "Q003"
  all := [.q001, .q002, .q003]
  find_word a := by cases a <;> rfl

/-- A message of a pass. -/
structure Diagnostic where
  /-- The kind of finding. -/
  code : DiagnosticCode
  /-- How serious it is. -/
  severity : Severity
  /-- What was found. -/
  message : String
  /-- The alias of the join concerned, if there is one. -/
  name : Option String
  /-- The binding concerned, if there is one. -/
  binding : Option Binding
  /-- The pass that found it. -/
  passName : String
deriving DecidableEq

namespace Diagnostic

/-- How a diagnostic is displayed. -/
def text (d : Diagnostic) : String :=
  "[" ++ Vocabulary.word d.code ++ "] " ++ Vocabulary.word d.severity ++ " (" ++ d.passName ++ "): "
    ++ d.message

/-- The line that a log shows for a diagnostic. -/
def logLine (d : Diagnostic) : LogLine := ⟨d.severity.logLevel, d.text⟩

end Diagnostic

end JoinGraph
