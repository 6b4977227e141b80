import JoinGraph.Proofs.Removal

/-!
# Edits of Dead Joins

What a dead join contains does not matter, nor does its being there. Dead joins may be removed or
replaced by anything, one after the other and in any order: a removal takes out only a binding that
is not live, a replacement leaves the binding and the alias, and so the query goes on agreeing with
the first one on what is live (`AgreesOnLive.deadEdit`). Pruning gives the same query in the end
(`prune_eq_of_deadEdits`), although a replacement may bring in references to other dead joins, to
live ones and to bindings that the query does not have.
-/

open Relation

namespace JoinGraph.Query

variable {q r s : Query} {a : Alias} {request : JoinRequest} {keep : Binding → Bool}

/-- A join that is still there and that was dead in `q` is removed or replaced. -/
inductive DeadEdit (q : Query) : Query → Query → Prop where
  | remove {s : Query} {a : Alias} {j : Join} (held : s.join? a = some j)
      (dead : j.index ∉ q.live) : DeadEdit q s (s.remove a)
  | replace {s : Query} {a : Alias} {j : Join} (held : s.join? a = some j)
      (dead : j.index ∉ q.live) (request : JoinRequest) : DeadEdit q s (s.replace a request)

/-! ### Edits outside of what is kept -/

theorem restrict_remove (h : ∀ j ∈ q.joins, j.name = some a → keep j.index = false) :
    (q.remove a).restrict keep = q.restrict keep := by
  rw [Query.restrict, Query.restrict, Query.remove]
  dsimp only
  rw [List.filter_filter]
  congr 1
  refine List.filter_congr fun j hj => ?_
  by_cases hname : j.name = some a
  · rw [h j hj hname, Bool.false_and]
  · rw [decide_eq_true hname, Bool.and_true]

private theorem filter_replaceFirst {joins : List Join}
    (h : ∀ j ∈ joins, j.name = some a → keep j.index = false) :
    (replaceFirst a request joins).filter (fun j => keep j.index)
      = joins.filter fun j => keep j.index := by
  induction joins with
  | nil => rfl
  | cons j rest ih =>
    obtain ⟨hj, hrest⟩ := List.forall_mem_cons.1 h
    rw [replaceFirst]
    split
    · rename_i hname
      -- The replacement has the binding of the join, so neither of them is kept.
      have hout : ¬ keep j.index = true := by simp [hj hname]
      rw [List.filter_cons, List.filter_cons, if_neg hout, if_neg hout]
    · rw [List.filter_cons, List.filter_cons, ih hrest]

theorem restrict_replace (hheld : q.hasJoin a = true)
    (h : ∀ j ∈ q.joins, j.name = some a → keep j.index = false) :
    (q.replace a request).restrict keep = q.restrict keep := by
  rw [Query.replace, if_pos hheld, Query.restrict, Query.restrict]
  dsimp only
  rw [filter_replaceFirst h]

/-! ### Sequences of edits -/

/-- An edit of a dead join changes nothing that is live. -/
theorem AgreesOnLive.deadEdit (h : q.AgreesOnLive s) (hq : q.WellFormed) (hedit : DeadEdit q s r) :
    q.AgreesOnLive r := by
  -- Only one join holds the alias, and that one is dead.
  have hdead : ∀ {a j}, s.join? a = some j → j.index ∉ q.live →
      ∀ k ∈ s.joins, k.name = some a → decide (k.index ∈ q.live) = false := by
    intro a j hj hdead k hk hname
    rw [(h.wellFormed hq).join?_eq_some hk hname] at hj
    obtain rfl := Option.some.inj hj
    exact decide_eq_false hdead
  cases hedit with
  | remove hj hnot =>
    refine ⟨?_, ?_⟩
    · rw [restrict_remove (hdead hj hnot), h.restrict]
    · exact (List.filter_sublist.map Join.key).trans h.keys
  | @replace a j hj hnot request =>
    have hheld : s.hasJoin a = true := by rw [hasJoin, hj, Option.isSome_some]
    refine ⟨?_, ?_⟩
    · rw [restrict_replace hheld (hdead hj hnot), h.restrict]
    · -- Whatever it is replaced by, a join keeps its binding and its alias.
      rw [Query.replace, if_pos hheld, map_key_replaceFirst]
      exact h.keys

/-- Removing and replacing dead joins, however often and in whatever order, changes neither what is
live nor the pruned query. -/
theorem prune_eq_of_deadEdits (h : q.WellFormed) (hr : ReflTransGen (DeadEdit q) q r) :
    r.live = q.live ∧ r.prune = q.prune := by
  have hagrees : q.AgreesOnLive r := by
    induction hr with
    | refl => exact ⟨(prune_eq_restrict q).symm, .refl _⟩
    | tail _ hedit ih => exact ih.deadEdit h hedit
  exact ⟨hagrees.live_eq h, hagrees.prune_eq h⟩

/-- Comments that depend on their authors, on themselves and on a binding that is missing. -/
def entangledComments : JoinRequest where
  qualifier := .inner
  source := .table Blog.users
  on := .seq [.row 2, .equals (.row 1) (.row 7)]

/-- The unread comments are entangled with their authors, and then the authors are removed, although
the comments need them by now. -/
theorem prune_eq_of_deadEdits_unread :
    unread.WellFormed
      ∧ ∃ r, ReflTransGen (DeadEdit unread) unread r
        ∧ r.joins.map (fun j => j.on.refs) = [[2, 1, 7]]
        ∧ r.live = unread.live ∧ r.prune = unread.prune := by
  have h : unread.WellFormed := wellFormed_of_check rfl
  have hgraph : DependencyGraph.ofQuery unread = ⟨[0, 1, 2], [(1, [0]), (2, [1])]⟩ := by cbv
  have hseeds : unread.liveSeeds = [0] := rfl
  have hunreached : (DependencyGraph.ofQuery unread).unreachedFrom [0, 1, 2] [0] = [1, 2] := by
    rw [hgraph]
    simp [DependencyGraph.unreachedFrom, DependencyGraph.dependencies]
  have hlive : unread.live = [0] := by
    have hnodes : (DependencyGraph.ofQuery unread).nodes = [0, 1, 2] := rfl
    rw [live, hseeds, DependencyGraph.reachableFrom, hnodes, hunreached]
    rfl
  have hreplace : DeadEdit unread unread (unread.replace Blog.commentsAlias entangledComments) :=
    .replace rfl (by rw [hlive]; decide) entangledComments
  have hremove : DeadEdit unread (unread.replace Blog.commentsAlias entangledComments)
      ((unread.replace Blog.commentsAlias entangledComments).remove Blog.authorAlias) :=
    .remove rfl (by rw [hlive]; decide)
  have hr := (ReflTransGen.single hreplace).tail hremove
  exact ⟨h, _, hr, by cbv, prune_eq_of_deadEdits h hr⟩

end JoinGraph.Query
