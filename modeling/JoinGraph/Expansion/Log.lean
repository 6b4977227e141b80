import JoinGraph.Expansion
import JoinGraph.Registry.Log

/-!
# What expansion logs

Every join that an expansion asks for is logged as the registry logs it, also when a later node
makes the expansion fail.
-/

namespace JoinGraph.Query

mutual

/-- The lines of one node. -/
def expandNodeLog (e : Expander) (q : Query) (site : ExpansionSite) : Spec → List LogLine
  | .relation name =>
    match q.associationJoin e site name with
    | .error _ => []
    | .ok join => q.ensureLog join.name join.request
  | .seq items => expandItemsLog e q site 0 items
  | .nested name sub =>
    match q.associationJoin e site name with
    | .error _ => []
    | .ok join =>
      let below := { site.down (.under name) with parent := join.index }
      q.ensureLog join.name join.request
        ++ expandNodeLog e (q.ensure join.name join.request) below sub
  | .prefixed extra sub =>
    expandNodeLog e q { site.down .spec with lead := site.lead ++ extra } sub

/-- The lines of siblings, up to the first that fails. -/
def expandItemsLog (e : Expander) (q : Query) (site : ExpansionSite) (index : Nat) :
    List Spec → List LogLine
  | [] => []
  | item :: rest =>
    let here := site.down (.item index)
    q.expandNodeLog e here item ++
      match q.expandNode e here item with
      | .error _ => []
      | .ok (q, _) => expandItemsLog e q site (index + 1) rest

end

/-- The lines of an expansion. -/
def expandLog (e : Expander) (q : Query) (spec : Spec) : List LogLine :=
  q.expandNodeLog e .start spec

end JoinGraph.Query
