import JoinGraph.Proofs.Blog
import JoinGraph.Proofs.Run

/-!
# Lineage of Bindings

The history invariant of the counter. Between two moments of a run, the counter has not decreased,
and a join of the later moment whose binding is below the counter of the earlier moment was a join
of the earlier moment, under the same alias (`Lineage`). Each registry step has this property and
the property is transitive, so it relates any two moments of a run.

The main result is `run_keeps_lineage`: every query that is reached is well-formed, the counter
never decreases, a binding that was passed over or freed is never handed out again, and a binding
stands for one alias as long as it is there.
-/

open Relation

namespace JoinGraph

/-- The second query can come after the first: the counter has not decreased, and joins numbered
below the counter of the first are joins of the first, under the same alias. -/
structure Lineage (q r : Query) : Prop where
  /-- The counter has not decreased. -/
  counter_le : q.nextIndex ≤ r.nextIndex
  /-- Joins below the old counter are old joins. -/
  inherited : ∀ k ∈ r.joins, k.index < q.nextIndex → ∃ j ∈ q.joins, j.key = k.key

namespace Lineage

variable {q r s : Query}

theorem refl (q : Query) : Lineage q q := ⟨Nat.le_refl _, fun k hk _ => ⟨k, hk, rfl⟩⟩

theorem trans (h : Lineage q r) (h' : Lineage r s) : Lineage q s where
  counter_le := Nat.le_trans h.counter_le h'.counter_le
  inherited k hk hlt := by
    -- A binding below the first counter is below the second, so the join is traced back twice.
    obtain ⟨j, hj, hjk⟩ := h'.inherited k hk (Nat.lt_of_lt_of_le hlt h.counter_le)
    have hindex : j.index = k.index := congrArg Prod.fst hjk
    obtain ⟨i, hi, hij⟩ := h.inherited j hj (hindex ▸ hlt)
    exact ⟨i, hi, hij.trans hjk⟩

/-- A registry step keeps the lineage: only an append brings a new binding, and that binding is the
counter. -/
theorem of_step (h : RegistryStep q r) : Lineage q r := by
  cases h with
  | append request hfree =>
    refine ⟨Nat.le_succ _, fun k hk hlt => ?_⟩
    rcases List.mem_append.1 hk with hk | hk
    · exact ⟨k, hk, rfl⟩
    · rw [List.mem_singleton.1 hk] at hlt
      exact absurd hlt (Nat.lt_irrefl _)
  | rewrite hkeys hcounter =>
    refine ⟨Nat.le_of_eq hcounter.symm, fun k hk _ => ?_⟩
    have hkey : k.key ∈ q.joins.map Join.key := hkeys ▸ List.mem_map_of_mem hk
    exact List.mem_map.1 hkey
  | drop hjoins hcounter =>
    exact ⟨Nat.le_of_eq hcounter.symm, fun k hk _ => ⟨k, hjoins.subset hk, rfl⟩⟩

theorem of_steps (h : ReflTransGen RegistryStep q r) : Lineage q r := by
  induction h with
  | refl => exact refl q
  | tail _ hstep ih => exact ih.trans (of_step hstep)

/-- A binding below the old counter that was not there has not come back. -/
theorem absent (h : Lineage q r) {b : Binding} (hlt : b < q.nextIndex) (hb : b ∉ q.bindings) :
    b ∉ r.bindings := by
  rw [Query.mem_bindings, not_or] at hb ⊢
  refine ⟨hb.1, fun ⟨k, hk, hkb⟩ => ?_⟩
  obtain ⟨j, hj, hjk⟩ := h.inherited k hk (hkb ▸ hlt)
  have hindex : j.index = k.index := congrArg Prod.fst hjk
  exact hb.2 ⟨j, hj, hindex.trans hkb⟩

/-- A binding that is there at both moments stands for one alias. -/
theorem name_eq (h : Lineage q r) (hq : q.WellFormed) {j k : Join} (hj : j ∈ q.joins)
    (hk : k ∈ r.joins) (hjk : j.index = k.index) : j.name = k.name := by
  obtain ⟨i, hi, hik⟩ := h.inherited k hk (hjk ▸ hq.counter_above j hj)
  have hindex : i.index = j.index := (congrArg Prod.fst hik).trans hjk.symm
  rw [← hq.eq_of_index_eq hi hj hindex]
  exact congrArg Prod.snd hik

end Lineage

namespace Query

/-- Whatever is done to a query that callers can start from, and at whatever two moments it is
looked at: the query is well-formed, the counter has not decreased, a binding below the earlier
counter that was not there has not come back, and a binding that is there at both moments stands
for the same alias. -/
theorem run_keeps_lineage {q : Query} (h : Origin q) (earlier later : List Operation) :
    (q.run (earlier ++ later)).WellFormed
      ∧ (q.run earlier).nextIndex ≤ (q.run (earlier ++ later)).nextIndex
      ∧ (∀ b, b < (q.run earlier).nextIndex → b ∉ (q.run earlier).bindings →
          b ∉ (q.run (earlier ++ later)).bindings)
      ∧ ∀ j ∈ (q.run earlier).joins, ∀ k ∈ (q.run (earlier ++ later)).joins,
          j.index = k.index → j.name = k.name := by
  have hearlier : (q.run earlier).WellFormed := h.wellFormed.steps (steps_run q earlier)
  rw [run_append]
  -- What follows the earlier moment is a run of its own.
  have hlater : ReflTransGen RegistryStep (q.run earlier) ((q.run earlier).run later) :=
    steps_run (q.run earlier) later
  have hlineage : Lineage (q.run earlier) ((q.run earlier).run later) := .of_steps hlater
  exact ⟨hearlier.steps hlater, hlineage.counter_le, fun b => hlineage.absent,
    fun j hj k hk => hlineage.name_eq hearlier hj hk⟩

/-- The binding of a join that was removed does not come back when its alias is registered again. -/
theorem run_keeps_lineage_removed_binding :
    Origin (ofRelation Blog.posts)
      ∧ (1 < ((ofRelation Blog.posts).run [.ensure Blog.commentsAlias (Blog.commentsRequest 1),
          .remove Blog.commentsAlias]).nextIndex)
      ∧ 1 ∉ bindings ((ofRelation Blog.posts).run
          ([.ensure Blog.commentsAlias (Blog.commentsRequest 1), .remove Blog.commentsAlias]
            ++ [.ensure Blog.commentsAlias (Blog.commentsRequest 2)])) :=
  ⟨.fresh _, by decide, (run_keeps_lineage (q := ofRelation Blog.posts) (.fresh _)
    [.ensure Blog.commentsAlias (Blog.commentsRequest 1), .remove Blog.commentsAlias]
    [.ensure Blog.commentsAlias (Blog.commentsRequest 2)]).2.2.1 1 (by decide) (by decide)⟩

end Query

end JoinGraph
