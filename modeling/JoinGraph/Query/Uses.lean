import JoinGraph.Expr.Walk
import JoinGraph.Query

/-!
# Uses of bindings

Where a query refers to its bindings: clauses, join conditions and preloads. Checked removal counts
the uses of one binding; the dangling references are the bindings that are referred to but that no
join provides.
-/

namespace JoinGraph.Query

/-- The bindings that clauses refer to, in clause order and with repetitions. -/
def clauseRefs (q : Query) : List Binding := q.clauses.flatMap Expr.refs

/-- The bindings that join conditions refer to, in join order and with repetitions. -/
def conditionRefs (joins : List Join) : List Binding := joins.flatMap fun j => j.on.refs

/-- All references of clauses and of join conditions. -/
def allRefs (q : Query) : List Binding := q.clauseRefs ++ conditionRefs q.joins

/-- The aliases that preloads name, in preorder and with repetitions. -/
def preloadNames (q : Query) : List Alias := PreloadTree.forestAliases q.preloads

/-- How often a binding is used: by clauses, by the conditions of other joins, and by preloads that
name its alias. -/
def uses (q : Query) (target : Binding) : Nat :=
  let others := q.joins.filter fun j => decide (j.index ≠ target)
  let named := match (q.joinAt? target).bind (·.name) with
    | some name => q.preloadNames.count name
    | none => 0
  q.clauseRefs.count target + (conditionRefs others).count target + named

/-- The references to bindings that the query does not have. -/
def danglingRefs (q : Query) : List Binding :=
  q.allRefs.filter fun b => decide (b ∉ q.bindings)

/-- The bindings that are referred to without being there, ascending, with the number of references
to each. -/
def dangling (q : Query) : List (Binding × Nat) :=
  let missing := q.danglingRefs
  (Binding.ascending missing).map fun b => (b, missing.count b)

end JoinGraph.Query
