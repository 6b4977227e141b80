import JoinGraph.Proofs.Dangling

/-!
# Pruning as an Exact Filter

Pruning keeps the live joins as they are, in their order, and touches nothing else. The bindings of
the pruned query are the live bindings (`bindings_prune`), no join of it is dead
(`deadJoins_prune`), and what the reference check finds in it was found before. The main result
`prune_exact` holds whatever cycles, anonymous joins and dangling references there are.
-/

namespace JoinGraph.Query

variable {q : Query} {j : Join}

theorem mem_joins_prune_iff : j ∈ q.prune.joins ↔ j ∈ q.joins ∧ j.index ∈ q.live := by
  rw [prune_eq_restrict, mem_joins_restrict, decide_eq_true_eq]

/-- No join of a pruned query is dead. -/
theorem deadJoins_prune (h : q.WellFormed) : q.prune.deadJoins = [] := by
  rw [List.eq_nil_iff_forall_not_mem]
  intro j hj
  obtain ⟨hmem, hdead⟩ := mem_deadJoins_iff.1 hj
  rw [live_prune h] at hdead
  exact hdead (mem_joins_prune_iff.1 hmem).2

/-- Pruning a second time changes nothing. -/
theorem prune_prune (h : q.WellFormed) : q.prune.prune = q.prune := by
  refine prune_eq_self fun j hj => ?_
  rw [live_prune h]
  exact (mem_joins_prune_iff.1 hj).2

/-- The bindings of a pruned query are the live ones. -/
theorem bindings_prune (h : q.WellFormed) : q.prune.bindings = q.live := by
  -- Both lists ascend, so it is enough that they have the same members.
  have hprune : q.prune.WellFormed := h.steps (steps_prune q)
  have hascending : q.prune.bindings.Pairwise (· < ·) := by
    rw [bindings, List.pairwise_cons]
    refine ⟨fun b hb => ?_, hprune.ascending⟩
    obtain ⟨j, hj, rfl⟩ := List.mem_map.1 hb
    exact hprune.positive j hj
  refine hascending.eq_of_mem_iff (pairwise_live q) fun b => ?_
  have hlive : q.Sufficient {b | b ∈ q.live} := sufficient_live h
  rw [prune_eq_restrict, mem_bindings_restrict_iff (decide_eq_true hlive.root), decide_eq_true_eq]
  exact ⟨fun hb => hb.2, fun hb => ⟨hlive.present b hb, hb⟩⟩

/-- The liveness analysis reports unclassified nodes only. -/
theorem code_of_mem_liveReports {d : Diagnostic} (hd : d ∈ q.liveReports) : d.code = .q001 := by
  rw [liveReports, List.mem_append, List.mem_map, List.mem_flatMap] at hd
  rcases hd with ⟨_, -, rfl⟩ | ⟨j, -, hd⟩
  · rfl
  · obtain ⟨_, -, rfl⟩ := List.mem_map.1 hd
    rfl

/-- Pruning keeps exactly the live joins, each as it is and in order, and nothing else of the query
changes. The bindings that are left are the live ones, and they are live still, so pruning again
changes nothing and reports no join. No binding is missing that was not missing before, none is
referred to more often, and the same preloads name no join. -/
theorem prune_exact (h : q.WellFormed) :
    (q.prune.joins.Sublist q.joins ∧ ∀ j ∈ q.joins, j ∈ q.prune.joins ↔ j.index ∈ q.live)
      ∧ q.prune = { q with joins := q.prune.joins }
      ∧ (q.prune.bindings = q.live ∧ q.prune.live = q.live)
      ∧ (q.prune.prune = q.prune ∧ ∀ d ∈ q.prune.pruneReports, d.code ≠ .q003)
      ∧ (∀ b, q.prune.danglingCount b ≤ q.danglingCount b)
      ∧ q.prune.dangling.map Prod.fst ⊆ q.dangling.map Prod.fst
      ∧ q.prune.preloadReports = q.preloadReports := by
  have hkeep : q.KeepsUsed fun b => decide (b ∈ q.live) := keepsUsed_live h
  have hcount : ∀ b, q.prune.danglingCount b ≤ q.danglingCount b := hkeep.danglingCount_restrict_le
  refine ⟨⟨List.filter_sublist, fun j hj => ?_⟩, rfl, ⟨bindings_prune h, live_prune h⟩,
    ⟨prune_prune h, fun d hd => ?_⟩, hcount, fun b hb => ?_, hkeep.preloadReports_restrict⟩
  · rw [mem_joins_prune_iff]
    exact ⟨fun hkept => hkept.2, fun hlive => ⟨hj, hlive⟩⟩
  · rw [pruneReports, deadJoins_prune h, List.map_nil, List.append_nil] at hd
    rw [code_of_mem_liveReports hd]
    decide
  · rw [mem_map_fst_dangling_iff] at hb ⊢
    exact Nat.lt_of_lt_of_le hb (hcount b)

/-- What is left when a join was removed that others refer to: the comments are preloaded and refer
to the removed binding 2, and two anonymous joins refer to each other, one of them to the removed
binding as well. -/
def littered : Query :=
  { ofRelation Blog.posts with
    joins := [{ Blog.comparing 1 0 2 with name := some Blog.commentsAlias },
      Blog.comparing 3 4 2, Blog.comparing 4 3 3]
    nextIndex := 5
    select := some (.row 9)
    preloads := [⟨"comments", Blog.commentsAlias, [.leaf "author" Blog.authorAlias]⟩] }

/-- The two anonymous joins refer to each other, but nothing else leads to them. -/
theorem live_littered : littered.live = [0, 1] := by
  have hgraph : DependencyGraph.ofQuery littered
      = ⟨[0, 1, 3, 4], [(1, [0]), (3, [4]), (4, [3])]⟩ := by cbv
  have hseeds : littered.liveSeeds = [0, 9, 1] := by cbv
  have hunreached : (DependencyGraph.ofQuery littered).unreachedFrom [0, 1, 3, 4] [0, 9, 1]
      = [3, 4] := by
    rw [hgraph]
    simp [DependencyGraph.unreachedFrom, DependencyGraph.dependencies]
  have hnodes : (DependencyGraph.ofQuery littered).nodes = [0, 1, 3, 4] := rfl
  rw [live, hseeds, DependencyGraph.reachableFrom, hnodes, hunreached]
  rfl

theorem prune_littered : littered.prune = { littered with
    joins := [{ Blog.comparing 1 0 2 with name := some Blog.commentsAlias }] } := by
  rw [prune_eq_restrict, live_littered]
  rfl

/-- The two anonymous joins go, and one of the two references to the missing binding with them. -/
theorem prune_exact_littered :
    littered.WellFormed ∧ littered.live = [0, 1] ∧ littered.dangling = [(2, 2), (9, 1)]
      ∧ littered.prune.joins.map (·.index) = [1] ∧ littered.prune.dangling = [(2, 1), (9, 1)]
      ∧ littered.prune.live = littered.live
      ∧ (littered.prune.prune = littered.prune
        ∧ ∀ d ∈ littered.prune.pruneReports, d.code ≠ .q003)
      ∧ (∀ b, littered.prune.danglingCount b ≤ littered.danglingCount b)
      ∧ littered.prune.preloadReports = littered.preloadReports := by
  have h : littered.WellFormed := wellFormed_of_check rfl
  obtain ⟨-, -, ⟨-, hagainLive⟩, hagain, hcount, -, hpreload⟩ := prune_exact h
  refine ⟨h, live_littered, by cbv, ?_, ?_, hagainLive, hagain, hcount, hpreload⟩
  · rw [prune_littered]
    rfl
  · rw [prune_littered]
    cbv

end JoinGraph.Query
