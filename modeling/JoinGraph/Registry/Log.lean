import JoinGraph.Log
import JoinGraph.Query.SameValue
import JoinGraph.Registry

/-!
# What the registry logs
-/

namespace JoinGraph.Query

/-- Registering logs the new binding, or that a request that differs from the join is ignored. -/
def ensureLog (q : Query) (name : Alias) (request : JoinRequest) : List LogLine :=
  match q.join? name with
  | none => [.debug ("Registered join " ++ q.nextIndex.label)]
  | some j =>
    if request.matches j then []
    else [.debug ("Join '" ++ name.text ++ "' already registered at " ++ j.index.label
      ++ ", ignoring differing request")]

/-- Replacing logs the binding that is kept, or what registering logs. -/
def replaceLog (q : Query) (name : Alias) (request : JoinRequest) : List LogLine :=
  match q.join? name with
  | none => q.ensureLog name request
  | some j => [.debug ("Replacing join '" ++ name.text ++ "' at " ++ j.index.label)]

/-- Removing logs that a join has gone. -/
def removeLog (q : Query) (name : Alias) : List LogLine :=
  if q.hasJoin name then [.debug ("Removed join '" ++ name.text ++ "'")] else []

/-- Checked removal logs what removing logs, once it is not refused. -/
def removeCheckedLog (q : Query) (name : Alias) : List LogLine :=
  match q.removeChecked name with
  | .ok _ => q.removeLog name
  | .error _ => []

/-- Removing under a policy logs what the removal logs. -/
def removeUnderLog (q : Query) (policy : RemovalPolicy) (name : Alias) : List LogLine :=
  match policy with
  | .permissive => q.removeLog name
  | .validating => q.removeCheckedLog name

end JoinGraph.Query
