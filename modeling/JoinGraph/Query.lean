import JoinGraph.Expr
import JoinGraph.Preload
import JoinGraph.Qualifier

/-!
# Queries

A query has a root source, an ordered list of joins and one slot for each clause. Joins are found
by alias or by binding. The counter `nextIndex` is the binding of the next join to be appended; it
only ever grows, so the number of a removed join is never handed out again.
-/

namespace JoinGraph

/-- Connective of a filter with the filters before it. -/
inductive BoolOp where
  | and
  | or
deriving DecidableEq, Repr

instance : Vocabulary BoolOp where
  word
    | .and => "and"
    | .or => "or"
  all := [.and, .or]
  find_word a := by cases a <;> rfl

/-- One filter of a query or of its groups. -/
structure Filter where
  /-- The connective. -/
  op : BoolOp
  /-- The predicate. -/
  expr : Expr

/-- Sort direction. -/
inductive SortDirection where
  | asc
  | desc
deriving DecidableEq, Repr

/-- Sorting is ascending unless told otherwise. -/
instance : Inhabited SortDirection := ⟨.asc⟩

instance : Vocabulary SortDirection where
  word
    | .asc => "asc"
    | .desc => "desc"
  all := [.asc, .desc]
  find_word a := by cases a <;> rfl

/-- One ordering term. -/
structure SortKey where
  /-- What to sort by. -/
  expr : Expr
  /-- The direction. -/
  direction : SortDirection

mutual

/-- The relation behind a binding. -/
inductive Source where
  | table (relation : RelationName)
  /-- A relation reached through an association of another binding. -/
  | association (parent : Binding) (name : String) (related : RelationName)
  /-- A nested query used as a relation. -/
  | subquery (query : Query)

/-- A join of a query. -/
structure Join where
  /-- Its binding, assigned once. -/
  index : Binding
  /-- Its alias, if it has one. -/
  name : Option Alias
  /-- The kind of join. -/
  qualifier : Qualifier
  /-- The joined relation. -/
  source : Source
  /-- The join condition. -/
  on : Expr

/-- A query. -/
structure Query where
  /-- The root source, binding 0. -/
  source : Source
  /-- The joins in the order they were registered. -/
  joins : List Join
  /-- The binding that the next appended join receives. -/
  nextIndex : Binding
  /-- The result shape. -/
  select : Option Expr
  /-- The filters. -/
  wheres : List Filter
  /-- The ordering. -/
  orderBys : List SortKey
  /-- The grouping. -/
  groupBys : List Expr
  /-- The filters of groups. -/
  havings : List Filter
  /-- The row limit. -/
  limit : Option Expr
  /-- The number of rows to skip. -/
  offset : Option Expr
  /-- What rows are to be distinct on. -/
  distinct : Option Expr
  /-- The preload forest that shapes the result. -/
  preloads : List PreloadTree

end

/-- What a join is to be: everything but its alias and its binding. -/
structure JoinRequest where
  /-- The kind of join. -/
  qualifier : Qualifier
  /-- The joined relation. -/
  source : Source
  /-- The join condition. -/
  on : Expr

/-- The relation whose associations apply to rows of a source; a nested query has none. -/
def Source.relation? : Source → Option RelationName
  | .table relation => some relation
  | .association _ _ related => some related
  | .subquery _ => none

namespace Query

/-- The query over `source` without joins and clauses. -/
def ofSource (source : Source) : Query where
  source := source
  joins := []
  nextIndex := 1
  select := none
  wheres := []
  orderBys := []
  groupBys := []
  havings := []
  limit := none
  offset := none
  distinct := none
  preloads := []

/-- The query over a plain relation. -/
def ofRelation (relation : RelationName) : Query := ofSource (.table relation)

/-- The join registered under an alias. -/
def join? (q : Query) (name : Alias) : Option Join :=
  q.joins.find? fun j => decide (j.name = some name)

/-- A join is registered under the alias. -/
def hasJoin (q : Query) (name : Alias) : Bool := (q.join? name).isSome

/-- The binding of the join registered under an alias. -/
def binding? (q : Query) (name : Alias) : Option Binding := (q.join? name).map (·.index)

/-- The join with a given binding. -/
def joinAt? (q : Query) (index : Binding) : Option Join :=
  q.joins.find? fun j => decide (j.index = index)

/-- The source behind a binding, if the query has the binding. -/
def source? (q : Query) (index : Binding) : Option Source :=
  if index = Binding.root then some q.source else (q.joinAt? index).map (·.source)

/-- The bindings of a query: the root, then every join in order. -/
def bindings (q : Query) : List Binding := Binding.root :: q.joins.map (·.index)

/-- The aliases that joins of the query hold, in join order. -/
def aliases (q : Query) : List Alias := q.joins.filterMap (·.name)

/-- Append a join with the next binding. -/
def append (q : Query) (name : Option Alias) (request : JoinRequest) : Query :=
  { q with
    joins := q.joins ++ [⟨q.nextIndex, name, request.qualifier, request.source, request.on⟩]
    nextIndex := q.nextIndex + 1 }

/-- The expressions of every clause outside the join list: result shape, filters, ordering,
grouping, group filters, distinct, limit, offset. -/
def clauses (q : Query) : List Expr :=
  q.select.toList ++ q.wheres.map (·.expr) ++ q.orderBys.map (·.expr) ++ q.groupBys
    ++ q.havings.map (·.expr) ++ q.distinct.toList ++ q.limit.toList ++ q.offset.toList

theorem mem_aliases {q : Query} {name : Alias} :
    name ∈ q.aliases ↔ ∃ j ∈ q.joins, j.name = some name := by
  simp [aliases]

/-- Looking an alias up finds a join exactly when some join holds the alias. -/
theorem hasJoin_iff_mem_aliases {q : Query} {name : Alias} :
    q.hasJoin name = true ↔ name ∈ q.aliases := by
  simp [hasJoin, join?, mem_aliases]

/-- A join that is found by alias is a join of the query and holds the alias. -/
theorem mem_joins_of_join? {q : Query} {name : Alias} {j : Join} (h : q.join? name = some j) :
    j ∈ q.joins ∧ j.name = some name :=
  ⟨List.mem_of_find?_eq_some h, by simpa using List.find?_some h⟩

/-- A join that is found by binding is a join of the query and has the binding. -/
theorem mem_joins_of_joinAt? {q : Query} {index : Binding} {j : Join}
    (h : q.joinAt? index = some j) : j ∈ q.joins ∧ j.index = index :=
  ⟨List.mem_of_find?_eq_some h, by simpa using List.find?_some h⟩

theorem mem_bindings {q : Query} {b : Binding} :
    b ∈ q.bindings ↔ b = Binding.root ∨ ∃ j ∈ q.joins, j.index = b := by
  simp [bindings]

theorem root_mem_bindings (q : Query) : Binding.root ∈ q.bindings := List.mem_cons_self

theorem index_mem_bindings {q : Query} {j : Join} (h : j ∈ q.joins) : j.index ∈ q.bindings :=
  mem_bindings.2 (.inr ⟨j, h, rfl⟩)

@[simp] theorem source?_root (q : Query) : q.source? Binding.root = some q.source := by
  simp [source?]

@[simp] theorem joins_append (q : Query) (name : Option Alias) (request : JoinRequest) :
    (q.append name request).joins
      = q.joins ++ [⟨q.nextIndex, name, request.qualifier, request.source, request.on⟩] := rfl

@[simp] theorem nextIndex_append (q : Query) (name : Option Alias) (request : JoinRequest) :
    (q.append name request).nextIndex = q.nextIndex + 1 := rfl

@[simp] theorem aliases_append (q : Query) (name : Option Alias) (request : JoinRequest) :
    (q.append name request).aliases = q.aliases ++ name.toList := by
  cases name <;> simp [aliases]

@[simp] theorem bindings_append (q : Query) (name : Option Alias) (request : JoinRequest) :
    (q.append name request).bindings = q.bindings ++ [q.nextIndex] := by
  simp [bindings]

/-- Appending a join leaves the clauses as they are. -/
@[simp] theorem clauses_append (q : Query) (name : Option Alias) (request : JoinRequest) :
    (q.append name request).clauses = q.clauses := rfl

end Query

end JoinGraph
