import JoinGraph.Query.Uses

/-!
# The dependency graph

The nodes are the bindings of a query. A join depends on every other binding that its condition
refers to, so all that a join needs is reachable from it. References to bindings that the query
does not have lead nowhere.
-/

namespace JoinGraph

/-- A directed graph on bindings. -/
structure DependencyGraph where
  /-- The nodes, in the order of the query's bindings. -/
  nodes : List Binding
  /-- For each node with edges, the nodes it depends on, ascending. -/
  edges : List (Binding × List Binding)

namespace DependencyGraph

/-- The bindings of a query other than its own that a join's condition refers to, ascending. -/
def dependenciesOf (nodes : List Binding) (j : Join) : List Binding :=
  j.on.refSet.filter fun b => decide (b ≠ j.index ∧ b ∈ nodes)

/-- The dependency graph of a query. -/
def ofQuery (q : Query) : DependencyGraph where
  nodes := q.bindings
  edges := q.joins.map fun j => (j.index, dependenciesOf q.bindings j)

/-- A binding is a node. -/
def contains (g : DependencyGraph) (b : Binding) : Bool := decide (b ∈ g.nodes)

/-- The nodes that a binding depends on, ascending. -/
def dependencies (g : DependencyGraph) (b : Binding) : List Binding :=
  ((g.edges.find? fun e => decide (e.1 = b)).map (·.2)).getD []

/-- The nodes that depend on a binding, ascending. -/
def dependents (g : DependencyGraph) (b : Binding) : List Binding :=
  Binding.ascending (g.nodes.filter fun c => decide (b ∈ g.dependencies c))

/-- The nodes that stay unreached when everything that the pending bindings lead to is taken out of
`unreached`. A binding is followed when it is first met, and then it is no longer unreached. -/
def unreachedFrom (g : DependencyGraph) (unreached pending : List Binding) : List Binding :=
  match pending with
  | [] => unreached
  | b :: rest =>
    if b ∈ unreached then g.unreachedFrom (unreached.erase b) (g.dependencies b ++ rest)
    else g.unreachedFrom unreached rest
termination_by (unreached.length, pending.length)
decreasing_by
  · rename_i h
    have hpos := List.length_pos_of_mem h
    have herase := List.length_erase_of_mem h
    exact Prod.Lex.left _ _ (by omega)
  · exact Prod.Lex.right _ (by simp)

/-- The nodes reachable from seeds, which are among them when they are nodes; ascending. -/
def reachableFrom (g : DependencyGraph) (seeds : List Binding) : List Binding :=
  let unreached := g.unreachedFrom g.nodes seeds
  Binding.ascending (g.nodes.filter fun b => decide (b ∉ unreached))

/-- Reachability by any number of dependency steps. -/
inductive Reaches (g : DependencyGraph) : Binding → Binding → Prop where
  | refl {b : Binding} (node : b ∈ g.nodes) : Reaches g b b
  | step {a b c : Binding} (node : a ∈ g.nodes) (dependency : b ∈ g.dependencies a)
    (rest : Reaches g b c) : Reaches g a c

end DependencyGraph

end JoinGraph
