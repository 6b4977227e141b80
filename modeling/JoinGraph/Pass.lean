import JoinGraph.Diagnostic
import JoinGraph.Liveness

/-!
# Passes

A pass takes a query to a query and tells what it finds. The two built-in passes report dangling
references and prune dead joins. Passes run in order, all of them or those that a filter names.
Passes that callers bring along are left out: they may return any query and tell anything, so
nothing holds of every run that has one of them.

What a run tells is a list of events, in which diagnostics and log lines are interleaved as they
arise.
-/

namespace JoinGraph

/-- The built-in passes, which are the only ones here. -/
inductive Pass where
  /-- Report references to what is not in the query. -/
  | danglingRefs
  /-- Remove joins that nothing observes. -/
  | deadJoins
deriving DecidableEq

/-- Something a run of passes tells. -/
inductive PassEvent where
  | log (line : LogLine)
  | report (diagnostic : Diagnostic)

namespace PassEvent

/-- The diagnostic of an event, if it is one. -/
def diagnostic? : PassEvent → Option Diagnostic
  | report d => some d
  | log _ => none

/-- The log line of an event, if it is one. -/
def logLine? : PassEvent → Option LogLine
  | report _ => none
  | log line => some line

/-- The line of an event when diagnostics go to the log as well. -/
def asLogLine : PassEvent → LogLine
  | report d => d.logLine
  | log line => line

end PassEvent

namespace Pass

/-- The name that filters use. -/
def name : Pass → String
  | danglingRefs => "dangling_refs"
  | deadJoins => "dead_joins"

/-- What a pass is for. -/
def description : Pass → String
  | danglingRefs => "Reports references to bindings that are neither the root nor a present join"
  | deadJoins =>
    "Removes joins whose bindings are not referenced by the result, filters, ordering, grouping, "
      ++ "preloads, or another live join"

/-- All built-in passes. -/
def all : List Pass := [danglingRefs, deadJoins]

/-- The pass with a given name. -/
def ofName? (text : String) : Option Pass := all.find? fun p => decide (p.name = text)

/-- The passes that run unless others are chosen: validation, then pruning. -/
def defaults : List Pass := [danglingRefs, deadJoins]

/-- The finding that references lead to a binding that is not there. -/
def danglingBinding (b : Binding) (count : Nat) : Diagnostic where
  code := .q002
  severity := .warning
  message := "Binding " ++ b.label ++ " is referenced " ++ toString count
    ++ " time(s) but no join provides it"
  name := none
  binding := some b
  passName := danglingRefs.name

/-- The finding that a preload names no join. -/
def danglingPreload (a : Alias) : Diagnostic where
  code := .q002
  severity := .warning
  message := "Preload '" ++ a.text ++ "' names no join"
  name := some a.text
  binding := none
  passName := danglingRefs.name

/-- The finding that a node refers to nothing the analysis knows of. -/
def unsupportedNode (description : String) (join : Option Join) : Diagnostic where
  code := .q001
  severity := .warning
  message := "Unsupported expression '" ++ description ++ "' contributes no references"
  name := (join.bind (·.name)).map (·.text)
  binding := join.map (·.index)
  passName := deadJoins.name

/-- The finding that a join was dead. -/
def prunedJoin (j : Join) : Diagnostic where
  code := .q003
  severity := .info
  message := "Join " ++ ((j.name.map (·.text)).getD "<anonymous>") ++ " (" ++ j.index.label
    ++ ") is not referenced and was removed"
  name := j.name.map (·.text)
  binding := some j.index
  passName := deadJoins.name

end Pass

namespace Query

/-- Findings of the reference check: missing bindings ascending, then preloads in preorder. -/
def danglingReports (q : Query) : List Diagnostic :=
  q.dangling.map (fun d => Pass.danglingBinding d.1 d.2)
    ++ (q.preloadNames.filter fun a => decide (a ∉ q.aliases)).map Pass.danglingPreload

/-- Findings of the liveness analysis: nodes of clauses, then nodes of join conditions that could
not be classified. -/
def liveReports (q : Query) : List Diagnostic :=
  (q.clauses.flatMap Expr.unsupportedNodes).map (fun d => Pass.unsupportedNode d none)
    ++ q.joins.flatMap fun j => j.on.unsupportedNodes.map fun d => Pass.unsupportedNode d (some j)

/-- Findings of pruning: those of the liveness analysis, then the dead joins in order. -/
def pruneReports (q : Query) : List Diagnostic :=
  q.liveReports ++ q.deadJoins.map Pass.prunedJoin

/-- Pruning logs how many joins it removed, if any. -/
def pruneLog (q : Query) : List LogLine :=
  let count := q.deadJoins.length
  if count = 0 then []
  else [.debug ("Pruned " ++ toString count ++ " of " ++ toString q.joins.length ++ " join(s)")]

end Query

namespace Pass

/-- The query after a pass. -/
def run (p : Pass) (q : Query) : Query :=
  match p with
  | danglingRefs => q
  | deadJoins => q.prune

/-- What a pass tells about a query. -/
def events (p : Pass) (q : Query) : List PassEvent :=
  match p with
  | danglingRefs => q.danglingReports.map .report
  | deadJoins => q.pruneReports.map .report ++ q.pruneLog.map .log

/-- The passes that a filter lets run, each as often as it is listed. -/
def selected (passes : List Pass) (names : Option (List String)) : List Pass :=
  match names with
  | none => passes
  | some names => passes.filter fun p => decide (p.name ∈ names)

/-- The query after passes, run one after the other. -/
def runAll (passes : List Pass) (q : Query) : Query := passes.foldl (fun q p => p.run q) q

/-- What passes tell when they run one after the other: each is announced first. -/
def allEvents : List Pass → Query → List PassEvent
  | [], _ => []
  | p :: rest, q =>
    .log (.debug ("Running pass '" ++ p.name ++ "'")) :: (p.events q ++ allEvents rest (p.run q))

/-- The diagnostics of passes that run one after the other. -/
def reports (passes : List Pass) (q : Query) : List Diagnostic :=
  (allEvents passes q).filterMap PassEvent.diagnostic?

end Pass

end JoinGraph
