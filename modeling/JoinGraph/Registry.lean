import JoinGraph.Error
import JoinGraph.Query.Uses

/-!
# The join registry

Joins are addressed by alias. Registering the same alias again keeps the join that is there, so
independently composed parts of a query share their joins; declaration order is kept throughout.
-/

namespace JoinGraph

/-- What to do with a join that is to be removed while it is still in use. -/
inductive RemovalPolicy where
  /-- Remove it; references are checked at a later stage. -/
  | permissive
  /-- Refuse to remove it. -/
  | validating
deriving DecidableEq, Repr

/-- Removal does not look for references unless told otherwise. -/
instance : Inhabited RemovalPolicy := ⟨.permissive⟩

instance : Vocabulary RemovalPolicy where
  word
    | .permissive => "permissive"
    | .validating => "validating"
  all := [.permissive, .validating]
  find_word a := by cases a <;> rfl

namespace Query

/-- Register a join under an alias, unless the alias is held already. -/
def ensure (q : Query) (name : Alias) (request : JoinRequest) : Query :=
  if q.hasJoin name then q else q.append (some name) request

/-- Change the first join under an alias. -/
def replaceFirst (name : Alias) (request : JoinRequest) : List Join → List Join
  | [] => []
  | j :: rest =>
    if j.name = some name then
      { j with qualifier := request.qualifier, source := request.source, on := request.on } :: rest
    else j :: replaceFirst name request rest

/-- Replace the join under an alias; it keeps its binding and its place. Without such a join,
register one. -/
def replace (q : Query) (name : Alias) (request : JoinRequest) : Query :=
  if q.hasJoin name then { q with joins := replaceFirst name request q.joins }
  else q.ensure name request

/-- Remove the join under an alias. The other joins keep their bindings and their order. -/
def remove (q : Query) (name : Alias) : Query :=
  { q with joins := q.joins.filter fun j => decide (j.name ≠ some name) }

/-- Remove the join under an alias, unless its binding is still in use. -/
def removeChecked (q : Query) (name : Alias) : Except QueryError Query :=
  match q.binding? name with
  | none => .ok (q.remove name)
  | some index =>
    -- References from the join's own condition go with the join.
    let count := q.uses index
    if 0 < count then .error (.danglingReference name index count) else .ok (q.remove name)

/-- Remove the join under an alias as the policy says. -/
def removeUnder (q : Query) (policy : RemovalPolicy) (name : Alias) : Except QueryError Query :=
  match policy with
  | .permissive => .ok (q.remove name)
  | .validating => q.removeChecked name

/-- An alias that is held already is left alone. -/
theorem ensure_eq_self_of_hasJoin {q : Query} {name : Alias} (request : JoinRequest)
    (h : q.hasJoin name = true) : q.ensure name request = q := by
  simp [ensure, h]

/-- A new alias goes to a new join at the end. -/
theorem ensure_eq_append_of_not_hasJoin {q : Query} {name : Alias} (request : JoinRequest)
    (h : q.hasJoin name = false) : q.ensure name request = q.append (some name) request := by
  simp [ensure, h]

/-- Replacing a join changes no binding. -/
theorem map_index_replaceFirst (name : Alias) (request : JoinRequest) (joins : List Join) :
    (replaceFirst name request joins).map (·.index) = joins.map (·.index) := by
  induction joins with
  | nil => rfl
  | cons j rest ih => unfold replaceFirst; split <;> simp [ih]

theorem mem_joins_remove {q : Query} {name : Alias} {j : Join} :
    j ∈ (q.remove name).joins ↔ j ∈ q.joins ∧ j.name ≠ some name := by
  simp [remove]

@[simp] theorem clauses_remove (q : Query) (name : Alias) : (q.remove name).clauses = q.clauses :=
  rfl

end Query

end JoinGraph
