import JoinGraph.Pass
import JoinGraph.Proofs.Expansion
import JoinGraph.Proofs.WellFormed

/-!
# Runs of Operations

Everything that a caller can do to a query is one `Operation`: the registry operations, expansion,
pruning, runs of passes, and edits of the slots that are open to the caller. An operation that is
refused leaves the query as it was, so an operation always has a query after it, and a run is a list
of operations carried out one after the other.

`Operation.steps_after` says once what an operation can do to the join list and the counter: a
sequence of registry steps. `Query.steps_run` says the same of a run, so what every step keeps is
kept by whole runs.
-/

open Relation

namespace JoinGraph

/-- The slots of a query that a caller may set to anything: the clauses and the preload forest. -/
structure Slots where
  select : Option Expr
  wheres : List Filter
  orderBys : List SortKey
  groupBys : List Expr
  havings : List Filter
  limit : Option Expr
  offset : Option Expr
  distinct : Option Expr
  preloads : List PreloadTree

/-- The query with its slots set. -/
def Query.withSlots (q : Query) (slots : Slots) : Query :=
  { q with
    select := slots.select
    wheres := slots.wheres
    orderBys := slots.orderBys
    groupBys := slots.groupBys
    havings := slots.havings
    limit := slots.limit
    offset := slots.offset
    distinct := slots.distinct
    preloads := slots.preloads }

/-- Something that a caller does to a query. -/
inductive Operation where
  /-- Register a join unless its alias is held. -/
  | ensure (name : Alias) (request : JoinRequest)
  /-- Replace the join under an alias, or register one. -/
  | replace (name : Alias) (request : JoinRequest)
  /-- Append a join without an alias. -/
  | append (request : JoinRequest)
  | remove (name : Alias)
  /-- Remove the join under an alias unless it is in use. -/
  | removeChecked (name : Alias)
  /-- Remove the join under an alias as a policy says. -/
  | removeUnder (policy : RemovalPolicy) (name : Alias)
  /-- Expand a specification. -/
  | expand (e : Expander) (spec : Spec)
  | prune
  /-- Run built-in passes, all of them or those that a filter names. A pass of the caller's own has
  no operation, since it may return any query. -/
  | passes (ps : List Pass) (names : Option (List String))
  | edit (slots : Slots)
  | reroot (source : Source)

namespace Operation

/-- The query that an operation gives, or why it is refused. -/
def apply (q : Query) : Operation → Except QueryError Query
  | .ensure name request => .ok (q.ensure name request)
  | .replace name request => .ok (q.replace name request)
  | .append request => .ok (q.append none request)
  | .remove name => .ok (q.remove name)
  | .removeChecked name => q.removeChecked name
  | .removeUnder policy name => q.removeUnder policy name
  | .expand e spec => q.expand e spec
  | .prune => .ok q.prune
  | .passes ps names => .ok (Pass.runAll (Pass.selected ps names) q)
  | .edit slots => .ok (q.withSlots slots)
  | .reroot source => .ok { q with source := source }

/-- The query after an operation. An operation that is refused changes nothing. -/
def after (q : Query) (op : Operation) : Query :=
  match op.apply q with
  | .ok r => r
  | .error _ => q

/-- After an operation stands the query that it gives, or the query before it. -/
theorem after_cases (q : Query) (op : Operation) :
    op.apply q = .ok (after q op) ∨ after q op = q := by
  rw [after]
  cases op.apply q with
  | ok r => exact .inl rfl
  | error error => exact .inr rfl

theorem steps_runAll (passes : List Pass) (q : Query) :
    ReflTransGen RegistryStep q (Pass.runAll passes q) := by
  induction passes generalizing q with
  | nil => exact .refl
  | cons p rest ih =>
    -- The reference check leaves the query as it is.
    cases p with
    | danglingRefs => exact ih q
    | deadJoins => exact (Query.steps_prune q).trans (ih q.prune)

/-- What an operation does to the join list and the counter is a sequence of registry steps. -/
theorem steps_after (q : Query) (op : Operation) : ReflTransGen RegistryStep q (after q op) := by
  rcases after_cases q op with h | h
  · cases op with
    | ensure name request => exact Query.steps_ensure q name request
    | replace name request => exact Query.steps_replace q name request
    -- Without an alias there is none that could be held already.
    | append request => exact .single (.append request fun a ha => nomatch ha)
    | remove name => exact Query.steps_remove q name
    | removeChecked name =>
      rw [Query.eq_remove_of_removeChecked h]
      exact Query.steps_remove q name
    | removeUnder policy name =>
      rw [Query.eq_remove_of_removeUnder h]
      exact Query.steps_remove q name
    | expand e spec => exact Query.steps_expand h
    | prune => exact Query.steps_prune q
    | passes ps names => exact steps_runAll _ q
    | edit slots => exact .single (.rewrite rfl rfl)
    | reroot source => exact .single (.rewrite rfl rfl)
  · rw [h]

end Operation

namespace Query

/-- The query after operations that are carried out one after the other. -/
def run (q : Query) (ops : List Operation) : Query := ops.foldl Operation.after q

theorem run_append (q : Query) (xs ys : List Operation) :
    q.run (xs ++ ys) = (q.run xs).run ys :=
  List.foldl_append

/-- What a run does to the join list and the counter is a sequence of registry steps. -/
theorem steps_run (q : Query) (ops : List Operation) :
    ReflTransGen RegistryStep q (q.run ops) := by
  induction ops generalizing q with
  | nil => exact .refl
  | cons op ops ih => exact (Operation.steps_after q op).trans (ih (Operation.after q op))

/-- A query that callers can start from. -/
inductive Origin : Query → Prop where
  | fresh (source : Source) : Origin (ofSource source)
  | accepted {raw q : Query} (h : raw.checked = .ok q) : Origin q
  | decoded {v : Json} {q : Query} (h : ofJson v = .ok q) : Origin q

theorem Origin.wellFormed {q : Query} (h : Origin q) : q.WellFormed := by
  cases h with
  | fresh source => exact wellFormed_ofSource source
  | accepted h => exact (wellFormed_of_checked h).2
  | decoded h => exact wellFormed_of_ofJson h

end Query

end JoinGraph
