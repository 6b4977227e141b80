import JoinGraph.Liveness
import JoinGraph.Registry
import Mathlib.Data.List.Nodup
import Mathlib.Logic.Relation

/-!
# Steps of the Join Registry

All operations change the join list and the counter in three ways only: a join is appended with the
next binding under a free alias, joins are rewritten under the binding and the alias that they have,
and joins are taken out. `RegistryStep` is one such change, and each operation of the registry is a
sequence of them. What holds after every step, such as well-formedness, therefore holds after every
operation.
-/

open Relation

namespace JoinGraph

/-- What a join is known by: its binding and its alias. -/
def Join.key (j : Join) : Binding × Option Alias := (j.index, j.name)

/-- One change of the join list and the counter. Clauses, preloads and the root source are free. -/
inductive RegistryStep : Query → Query → Prop where
  /-- A join is appended with the next binding, under a free alias or none. -/
  | append {q : Query} {name : Option Alias} (request : JoinRequest)
      (free : ∀ a ∈ name, a ∉ q.aliases) : RegistryStep q (q.append name request)
  /-- Joins are rewritten and keep what they are known by. -/
  | rewrite {q r : Query} (keys : r.joins.map Join.key = q.joins.map Join.key)
      (counter : r.nextIndex = q.nextIndex) : RegistryStep q r
  /-- Joins are taken out. -/
  | drop {q r : Query} (joins : r.joins.Sublist q.joins) (counter : r.nextIndex = q.nextIndex) :
      RegistryStep q r

namespace Query

variable {q r : Query}

/-! ### Operations as steps -/

/-- Registering an alias finds a join and changes nothing, or finds none and appends one. -/
theorem ensure_cases (q : Query) (name : Alias) (request : JoinRequest) :
    (∃ j, q.join? name = some j ∧ q.ensure name request = q)
      ∨ (q.join? name = none ∧ q.ensure name request = q.append (some name) request) := by
  cases hjoin : q.join? name with
  | some j =>
    have hheld : q.hasJoin name = true := by rw [hasJoin, hjoin, Option.isSome_some]
    exact .inl ⟨j, rfl, ensure_eq_self_of_hasJoin request hheld⟩
  | none =>
    have hfree : q.hasJoin name = false := by rw [hasJoin, hjoin, Option.isSome_none]
    exact .inr ⟨rfl, ensure_eq_append_of_not_hasJoin request hfree⟩

/-- Registering an alias appends a join only when the alias is free. -/
theorem steps_ensure (q : Query) (name : Alias) (request : JoinRequest) :
    ReflTransGen RegistryStep q (q.ensure name request) := by
  rcases ensure_cases q name request with ⟨j, -, hsame⟩ | ⟨hnone, happend⟩
  · rw [hsame]
  · rw [happend]
    refine .single (.append request fun a ha => ?_)
    obtain rfl := Option.mem_some.1 ha
    rw [← hasJoin_iff_mem_aliases, hasJoin, hnone, Option.isSome_none]
    exact Bool.false_ne_true

/-- Replacing a join changes nothing that joins are known by. -/
theorem map_key_replaceFirst (name : Alias) (request : JoinRequest) (joins : List Join) :
    (replaceFirst name request joins).map Join.key = joins.map Join.key := by
  induction joins with
  | nil => rfl
  | cons j rest ih =>
    rw [replaceFirst]
    split
    · rfl
    · rw [List.map_cons, List.map_cons, ih]

/-- Replacing rewrites a join, or registers one. -/
theorem steps_replace (q : Query) (name : Alias) (request : JoinRequest) :
    ReflTransGen RegistryStep q (q.replace name request) := by
  rw [replace]
  split
  · exact .single (.rewrite (map_key_replaceFirst name request q.joins) rfl)
  · exact steps_ensure q name request

theorem steps_remove (q : Query) (name : Alias) :
    ReflTransGen RegistryStep q (q.remove name) :=
  .single (.drop List.filter_sublist rfl)

theorem steps_prune (q : Query) : ReflTransGen RegistryStep q q.prune :=
  .single (.drop List.filter_sublist rfl)

/-- The removal of a join that is there is refused exactly when its binding is in use. -/
theorem removeChecked_eq {j : Join} {name : Alias} (hj : q.join? name = some j) :
    q.removeChecked name = if q.uses j.index = 0 then .ok (q.remove name)
      else .error (.danglingReference name j.index (q.uses j.index)) := by
  have hbinding : q.binding? name = some j.index := by rw [binding?, hj, Option.map_some]
  rw [removeChecked, hbinding]
  dsimp only
  by_cases huses : q.uses j.index = 0
  · rw [if_pos huses, huses, if_neg (Nat.lt_irrefl 0)]
  · rw [if_neg huses, if_pos (Nat.pos_of_ne_zero huses)]

/-- A checked removal that is not refused is a removal. -/
theorem eq_remove_of_removeChecked {name : Alias} (h : q.removeChecked name = .ok r) :
    r = q.remove name := by
  rw [removeChecked] at h
  split at h
  · exact (Except.ok.inj h).symm
  · -- The uses decide only whether the removal is refused.
    dsimp only at h
    split at h
    · cases h
    · exact (Except.ok.inj h).symm

theorem eq_remove_of_removeUnder {policy : RemovalPolicy} {name : Alias}
    (h : q.removeUnder policy name = .ok r) : r = q.remove name := by
  cases policy with
  | permissive => exact (Except.ok.inj h).symm
  | validating => exact eq_remove_of_removeChecked h

/-! ### Well-formedness -/

theorem map_index_eq_map_key (joins : List Join) :
    joins.map (·.index) = (joins.map Join.key).map Prod.fst := by
  rw [List.map_map]
  rfl

theorem filterMap_name_eq_map_key (joins : List Join) :
    joins.filterMap (·.name) = (joins.map Join.key).filterMap Prod.snd := by
  rw [List.filterMap_map]
  rfl

/-- Joins with one binding are one join. -/
theorem WellFormed.eq_of_index_eq (h : q.WellFormed) {j k : Join} (hj : j ∈ q.joins)
    (hk : k ∈ q.joins) (hjk : j.index = k.index) : j = k := by
  have hfound : q.joinAt? j.index = some k := by rw [hjk, h.joinAt?_eq_some hk]
  rw [h.joinAt?_eq_some hj] at hfound
  exact Option.some.inj hfound

/-- A join stands apart from the others by its alias. -/
theorem WellFormed.name_ne_of_split (h : q.WellFormed) {before after : List Join} {j : Join}
    {a : Alias} (hsplit : q.joins = before ++ j :: after) (hname : j.name = some a) :
    ∀ k ∈ before ++ after, k.name ≠ some a := by
  have hnodup := h.nodup
  rw [aliases, hsplit, List.filterMap_append, List.filterMap_cons_some hname, List.nodup_middle,
    ← List.filterMap_append, List.nodup_cons] at hnodup
  exact fun k hk hkname => hnodup.1 (List.mem_filterMap.2 ⟨k, hk, hkname⟩)

theorem WellFormed.lt_nextIndex_of_mem_bindings (h : q.WellFormed) {b : Binding}
    (hb : b ∈ q.bindings) : b < q.nextIndex := by
  rcases mem_bindings.1 hb with rfl | ⟨j, hj, rfl⟩
  · exact h.counter_positive
  · exact h.counter_above j hj

/-- A join that is appended without an alias or under a free alias fits in. -/
theorem WellFormed.append (h : q.WellFormed) {name : Option Alias} (request : JoinRequest)
    (hfree : ∀ a ∈ name, a ∉ q.aliases) : (q.append name request).WellFormed where
  ascending := by
    rw [joins_append, List.map_append, List.pairwise_append]
    refine ⟨h.ascending, by simp, fun a ha b hb => ?_⟩
    obtain ⟨j, hj, rfl⟩ := List.mem_map.1 ha
    -- The new binding is the counter, which is above all that are there.
    have hb' : b = q.nextIndex := by simpa using hb
    rw [hb']
    exact h.counter_above j hj
  positive j hj := by
    rcases List.mem_append.1 hj with hj | hj
    · exact h.positive j hj
    · rw [List.mem_singleton.1 hj]
      exact h.counter_positive
  nodup := by
    rw [aliases_append]
    refine List.nodup_append.2 ⟨h.nodup, ?_, fun a ha b hb hab => ?_⟩
    · cases name <;> simp
    · exact hfree b (Option.mem_toList.1 hb) (hab ▸ ha)
  counter_positive := Nat.succ_pos q.nextIndex
  counter_above j hj := by
    rw [nextIndex_append]
    rcases List.mem_append.1 hj with hj | hj
    · exact Nat.lt_succ_of_lt (h.counter_above j hj)
    · rw [List.mem_singleton.1 hj]
      exact Nat.lt_succ_self _

/-- Well-formedness depends on the counter and on what joins are known by, and it holds of fewer
joins as well. -/
theorem WellFormed.of_keys_sublist (h : q.WellFormed)
    (hkeys : (r.joins.map Join.key).Sublist (q.joins.map Join.key))
    (hcounter : r.nextIndex = q.nextIndex) : r.WellFormed := by
  have hindex : (r.joins.map (·.index)).Sublist (q.joins.map (·.index)) := by
    rw [map_index_eq_map_key, map_index_eq_map_key q.joins]
    exact hkeys.map Prod.fst
  -- A rewritten join need not be a join of before, but it has the binding of one.
  have hmem : ∀ j ∈ r.joins, ∃ k ∈ q.joins, k.index = j.index := fun j hj =>
    List.mem_map.1 (hindex.subset (List.mem_map_of_mem hj))
  exact {
    ascending := h.ascending.sublist hindex
    positive := fun j hj => by
      obtain ⟨k, hk, hkj⟩ := hmem j hj
      exact hkj ▸ h.positive k hk
    nodup := by
      rw [aliases, filterMap_name_eq_map_key]
      have hnodup := h.nodup
      rw [aliases, filterMap_name_eq_map_key] at hnodup
      exact hnodup.sublist (hkeys.filterMap Prod.snd)
    counter_positive := by rw [hcounter]; exact h.counter_positive
    counter_above := fun j hj => by
      obtain ⟨k, hk, hkj⟩ := hmem j hj
      rw [hcounter, ← hkj]
      exact h.counter_above k hk }

/-- Rewriting joins keeps a query well-formed. -/
theorem WellFormed.rewrite (h : q.WellFormed) (hkeys : r.joins.map Join.key = q.joins.map Join.key)
    (hcounter : r.nextIndex = q.nextIndex) : r.WellFormed :=
  h.of_keys_sublist (hkeys ▸ .refl _) hcounter

/-- Taking joins out keeps a query well-formed. -/
theorem WellFormed.drop (h : q.WellFormed) (hjoins : r.joins.Sublist q.joins)
    (hcounter : r.nextIndex = q.nextIndex) : r.WellFormed :=
  h.of_keys_sublist (hjoins.map Join.key) hcounter

theorem WellFormed.step (h : q.WellFormed) (hstep : RegistryStep q r) : r.WellFormed := by
  cases hstep with
  | append request hfree => exact h.append request hfree
  | rewrite hkeys hcounter => exact h.rewrite hkeys hcounter
  | drop hjoins hcounter => exact h.drop hjoins hcounter

/-- Steps keep a query well-formed. -/
theorem WellFormed.steps (h : q.WellFormed) (hsteps : ReflTransGen RegistryStep q r) :
    r.WellFormed := by
  induction hsteps with
  | refl => exact h
  | tail _ hstep ih => exact ih.step hstep

end Query

end JoinGraph
