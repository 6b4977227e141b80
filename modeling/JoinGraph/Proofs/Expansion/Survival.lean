import JoinGraph.Proofs.Expansion.Joins
import JoinGraph.Proofs.Preload.Merge
import JoinGraph.Proofs.Pruning.Exact

/-!
# What an Expansion Asks For Survives Pruning

An expansion leaves every alias that it generates in two places: a join holds it, be it a new one or
one that was there, and the preloads name it, since a merge loses no alias at any depth
(`names_preloads_of_expand`). A join that a preload names is live (`index_mem_live_of_names`), so
pruning keeps what was asked for, and can only take out joins that were there before the expansion
(`survives_prune_of_expand`).
-/

namespace JoinGraph.Query

variable {e : Expander} {q r : Query} {spec : Spec} {a : Alias} {j : Join}

/-- The preloads make the joins live that they name. -/
theorem index_mem_live_of_names (h : q.WellFormed) (hj : q.join? a = some j)
    (hnames : PreloadTree.Names q.preloads a) : j.index ∈ q.live := by
  obtain ⟨hmem, hname⟩ := mem_joins_of_join? hj
  exact (sufficient_live h).preload j hmem a hname hnames

/-- Pruning does not change what a live join is found by. -/
theorem join?_prune (h : q.WellFormed) (hj : q.join? a = some j) (hlive : j.index ∈ q.live) :
    q.prune.join? a = some j := by
  rw [prune_eq_restrict, join?_restrict, hj]
  intro k hk hname
  rw [h.join?_eq_some hk hname] at hj
  obtain rfl := Option.some.inj hj
  exact decide_eq_true hlive

/-- After an expansion the preloads name every alias of the specification, and a join holds it. -/
theorem names_preloads_of_expand (hr : q.expand e spec = .ok r) {text : String}
    (htext : text ∈ spec.aliases) :
    ∃ a, a.text = text ∧ PreloadTree.Names r.preloads a ∧ r.hasJoin a = true := by
  obtain ⟨a, hnames, rfl⟩ := (mem_aliases_iff_exists_names hr).1 htext
  refine ⟨a, rfl, ?_, ?_⟩
  · rw [preloads_expand hr, PreloadTree.names_merge_iff]
    exact .inr hnames
  · obtain ⟨s, hs, rfl⟩ := expand_eq_ok_iff.1 hr
    exact expandNode_names hs hnames

/-- The join that holds an alias of the specification after the expansion, whether it was there or
is new, is live, and pruning keeps it. -/
theorem exists_live_of_expand (h : q.WellFormed) (hr : q.expand e spec = .ok r) {text : String}
    (htext : text ∈ spec.aliases) :
    ∃ a j, a.text = text ∧ r.join? a = some j ∧ j.index ∈ r.live ∧ r.prune.join? a = some j := by
  have hwf : r.WellFormed := h.steps (steps_expand hr)
  obtain ⟨a, hatext, hnames, hheld⟩ := names_preloads_of_expand hr htext
  obtain ⟨j, hj⟩ := Option.isSome_iff_exists.1 hheld
  have hlive : j.index ∈ r.live := index_mem_live_of_names hwf hj hnames
  exact ⟨a, j, hatext, hj, hlive, join?_prune hwf hj hlive⟩

/-- The joins that hold what an expansion generates are live after it, and pruning leaves each of
them as it is. A join that pruning takes out was there before and has not been asked for. -/
theorem survives_prune_of_expand (h : q.WellFormed) (hr : q.expand e spec = .ok r) :
    (∀ text ∈ spec.aliases, ∃ a j, a.text = text ∧ r.join? a = some j
        ∧ j.index ∈ r.live ∧ j ∈ r.prune.joins ∧ r.prune.join? a = some j)
      ∧ ∀ j ∈ r.joins, j ∉ r.prune.joins →
        j ∈ q.joins ∧ ∀ a, j.name = some a → a.text ∉ spec.aliases := by
  have hwf : r.WellFormed := h.steps (steps_expand hr)
  refine ⟨fun text htext => ?_, fun j hj hpruned => ?_⟩
  · obtain ⟨a, j, hatext, hj, hlive, hkept⟩ := exists_live_of_expand h hr htext
    exact ⟨a, j, hatext, hj, hlive, (mem_joins_of_join? hkept).1, hkept⟩
  · -- The join that holds an alias of the specification is kept, and no other join holds it.
    have hother : ∀ a, j.name = some a → a.text ∉ spec.aliases := by
      intro a hname htext
      obtain ⟨b, k, hbtext, hk, -, hkept⟩ := exists_live_of_expand h hr htext
      obtain rfl := Alias.ext hbtext
      rw [hwf.join?_eq_some hj hname] at hk
      obtain rfl := Option.some.inj hk
      exact hpruned (mem_joins_of_join? hkept).1
    refine ⟨?_, hother⟩
    obtain ⟨new, hnew⟩ := registers_expand hr
    rw [hnew.joins, List.mem_append] at hj
    refine hj.resolve_right fun hj => ?_
    obtain ⟨a, hname, hmissing⟩ := hnew.exists_name_eq hj
    exact hother a hname (mem_missing_iff.1 hmissing).1

/-- Posts joined with users twice, under the alias of authors and without an alias. Nothing asks for
either join, and the comments that are preloaded are not joined yet. -/
def preloadedComments : Query :=
  { ofRelation Blog.posts with
    joins := [{ Blog.comparing 1 1 0 with name := some Blog.authorAlias }, Blog.comparing 2 2 1]
    nextIndex := 4
    preloads := [.leaf "comments" Blog.commentsAlias] }

/-- Comments and their authors, under no lead. -/
def authoredComments : Spec := .nested "comments" (.relation "author")

/-- The dead join of authors is asked for by the expansion and stays. Only the anonymous one
goes. -/
theorem survives_prune_of_expand_preloadedComments :
    preloadedComments.WellFormed ∧ preloadedComments.live = [0]
      ∧ ∃ r, preloadedComments.expand Blog.expander authoredComments = .ok r
        ∧ r.joins.map (·.index) = [1, 2, 4] ∧ r.live = [0, 1, 4]
        ∧ (∃ a j, a.text = "author" ∧ r.join? a = some j ∧ j.index ∈ r.live ∧ j ∈ r.prune.joins
          ∧ r.prune.join? a = some j)
        ∧ ∀ j ∈ r.joins, j ∉ r.prune.joins → j ∈ preloadedComments.joins := by
  have h : preloadedComments.WellFormed := wellFormed_of_check rfl
  have hgraph : DependencyGraph.ofQuery preloadedComments
      = ⟨[0, 1, 2], [(1, [0]), (2, [1])]⟩ := by cbv
  have hseeds : preloadedComments.liveSeeds = [0] := by cbv
  have hunreached : (DependencyGraph.ofQuery preloadedComments).unreachedFrom [0, 1, 2] [0]
      = [1, 2] := by
    rw [hgraph]
    simp [DependencyGraph.unreachedFrom, DependencyGraph.dependencies]
  have hlive : preloadedComments.live = [0] := by
    have hnodes : (DependencyGraph.ofQuery preloadedComments).nodes = [0, 1, 2] := rfl
    rw [live, hseeds, DependencyGraph.reachableFrom, hnodes, hunreached]
    rfl
  -- The expansion joins the comments as 4, and the preloads name them and the authors.
  obtain ⟨r, hr, hindices, hrgraph, hrseeds⟩ : ∃ r,
      preloadedComments.expand Blog.expander authoredComments = .ok r
        ∧ r.joins.map (·.index) = [1, 2, 4]
        ∧ DependencyGraph.ofQuery r = ⟨[0, 1, 2, 4], [(1, [0]), (2, [1]), (4, [0])]⟩
        ∧ r.liveSeeds = [0, 4, 1] := ⟨_, rfl, rfl, by cbv, by cbv⟩
  have hrunreached : (DependencyGraph.ofQuery r).unreachedFrom [0, 1, 2, 4] [0, 4, 1] = [2] := by
    rw [hrgraph]
    simp [DependencyGraph.unreachedFrom, DependencyGraph.dependencies]
  have hrlive : r.live = [0, 1, 4] := by
    have hrnodes : (DependencyGraph.ofQuery r).nodes = [0, 1, 2, 4] := by rw [hrgraph]
    rw [live, hrseeds, DependencyGraph.reachableFrom, hrnodes, hrunreached]
    rfl
  obtain ⟨hkept, hold⟩ := survives_prune_of_expand h hr
  exact ⟨h, hlive, r, hr, hindices, hrlive, hkept "author" (by decide),
    fun j hj hpruned => (hold j hj hpruned).1⟩

end JoinGraph.Query
