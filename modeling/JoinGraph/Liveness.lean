import JoinGraph.Dependency

/-!
# Live bindings and pruning

A binding is live when it is the root, when a clause or the preload forest names it, or when the
condition of a live join refers to it. Pruning keeps the live joins, with their bindings and in
their order.
-/

namespace JoinGraph.Query

/-- The bindings that are live whatever the joins refer to: the root, those that clauses refer to,
and those whose alias a preload names. -/
def liveSeeds (q : Query) : List Binding :=
  Binding.root :: (q.clauseRefs ++ q.preloadNames.filterMap q.binding?)

/-- The live bindings, ascending. -/
def live (q : Query) : List Binding :=
  (DependencyGraph.ofQuery q).reachableFrom q.liveSeeds

/-- The joins that are not live, in order. -/
def deadJoins (q : Query) : List Join :=
  -- Found once for all joins.
  let live := q.live
  q.joins.filter fun j => decide (j.index ∉ live)

/-- The query without its dead joins. -/
def prune (q : Query) : Query :=
  let live := q.live
  { q with joins := q.joins.filter fun j => decide (j.index ∈ live) }

end JoinGraph.Query
