import JoinGraph.Query

/-!
# Equality of queries

Whether a request differs from the join it would add is decided by comparing the two as values, in
which the two floating point zeros are equal.
-/

namespace JoinGraph

namespace PreloadTree

mutual

/-- Two trees have the same nodes in the same places. -/
def same : PreloadTree → PreloadTree → Bool
  | ⟨association, name, children⟩, ⟨association', name', children'⟩ =>
    decide (association = association') && decide (name = name') && sameForest children children'

/-- Two forests have the same trees in the same order. -/
def sameForest : List PreloadTree → List PreloadTree → Bool
  | [], [] => true
  | t :: rest, t' :: rest' => t.same t' && sameForest rest rest'
  | _, _ => false

end

end PreloadTree

/-- Equality of absent or present expressions. -/
def Expr.sameOptional : Option Expr → Option Expr → Bool
  | none, none => true
  | some e, some e' => e.sameValue e'
  | _, _ => false

/-- Equality of filters, one by one. -/
def Filter.sameValues : List Filter → List Filter → Bool
  | [], [] => true
  | f :: rest, f' :: rest' =>
    decide (f.op = f'.op) && f.expr.sameValue f'.expr && sameValues rest rest'
  | _, _ => false

/-- Equality of ordering terms, one by one. -/
def SortKey.sameValues : List SortKey → List SortKey → Bool
  | [], [] => true
  | k :: rest, k' :: rest' =>
    k.expr.sameValue k'.expr && decide (k.direction = k'.direction) && sameValues rest rest'
  | _, _ => false

mutual

/-- Equality of sources as values. -/
def Source.sameValue : Source → Source → Bool
  | .table r, .table r' => decide (r = r')
  | .association p a r, .association p' a' r' =>
    decide (p = p') && decide (a = a') && decide (r = r')
  | .subquery q, .subquery q' => q.sameValue q'
  | _, _ => false

/-- Equality of joins as values. -/
def Join.sameValue : Join → Join → Bool
  | ⟨index, name, qualifier, source, on⟩, j =>
    decide (index = j.index) && decide (name = j.name) && decide (qualifier = j.qualifier)
      && source.sameValue j.source && on.sameValue j.on

/-- Equality of lists of joins, one by one. -/
def Join.sameValues : List Join → List Join → Bool
  | [], [] => true
  | j :: rest, j' :: rest' => j.sameValue j' && Join.sameValues rest rest'
  | _, _ => false

/-- Equality of queries as values. -/
def Query.sameValue : Query → Query → Bool
  | ⟨source, joins, nextIndex, select, wheres, orderBys, groupBys, havings, limit, offset, distinct,
      preloads⟩, q =>
    source.sameValue q.source && Join.sameValues joins q.joins
      && decide (nextIndex = q.nextIndex) && Expr.sameOptional select q.select
      && Filter.sameValues wheres q.wheres && SortKey.sameValues orderBys q.orderBys
      && Expr.sameValues groupBys q.groupBys && Filter.sameValues havings q.havings
      && Expr.sameOptional limit q.limit && Expr.sameOptional offset q.offset
      && Expr.sameOptional distinct q.distinct && PreloadTree.sameForest preloads q.preloads

end

/-- The request asks for the join as it is. -/
def JoinRequest.matches (request : JoinRequest) (j : Join) : Bool :=
  decide (j.qualifier = request.qualifier) && j.source.sameValue request.source
    && j.on.sameValue request.on

end JoinGraph
