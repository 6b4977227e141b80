import JoinGraph.Query

/-!
# Building clauses

Single-valued clauses are set, and list-valued ones grow at the end. None of these functions
touches the joins or the counter.
-/

namespace JoinGraph.Query

/-- Set the result shape. -/
def withSelect (q : Query) (e : Expr) : Query := { q with select := some e }

/-- Take the result shape away. -/
def withoutSelect (q : Query) : Query := { q with select := none }

/-- Add a filter that must hold as well. -/
def withWhere (q : Query) (e : Expr) : Query :=
  { q with wheres := q.wheres ++ [Filter.mk .and e] }

/-- Add a filter that may hold instead. -/
def orWhere (q : Query) (e : Expr) : Query :=
  { q with wheres := q.wheres ++ [Filter.mk .or e] }

/-- Add an ordering term. -/
def withOrderBy (q : Query) (e : Expr) (direction : SortDirection) : Query :=
  { q with orderBys := q.orderBys ++ [SortKey.mk e direction] }

/-- Add a grouping term. -/
def withGroupBy (q : Query) (e : Expr) : Query := { q with groupBys := q.groupBys ++ [e] }

/-- Add a filter of groups that must hold as well. -/
def withHaving (q : Query) (e : Expr) : Query :=
  { q with havings := q.havings ++ [Filter.mk .and e] }

/-- Set the row limit. -/
def withLimit (q : Query) (e : Expr) : Query := { q with limit := some e }

/-- Set the number of rows to skip. -/
def withOffset (q : Query) (e : Expr) : Query := { q with offset := some e }

/-- Set what rows are to be distinct on. -/
def withDistinct (q : Query) (e : Expr) : Query := { q with distinct := some e }

/-- Add a tree to the preload forest. -/
def withPreload (q : Query) (tree : PreloadTree) : Query :=
  { q with preloads := q.preloads ++ [tree] }

/-- Merge a forest into the preload forest. -/
def withPreloads (q : Query) (forest : List PreloadTree) : Query :=
  { q with preloads := PreloadTree.merge q.preloads forest }

/-- Take the preload forest away. -/
def withoutPreloads (q : Query) : Query := { q with preloads := [] }

end JoinGraph.Query
