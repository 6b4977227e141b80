import JoinGraph.Proofs.Integrity
import JoinGraph.Proofs.Pruning
import Mathlib.Order.WellFoundedSet

/-!
# Checked Removal and Pruning

Checked removal counts the uses of one binding, pruning traces what is live. A join that nothing
asks for is dead (`Unused.not_mem_live`), so checked removals, in whatever order they are made, take
dead joins out, and pruning gives the same query before and after them.

The other direction needs more. Dead joins that depend on each other in a cycle are in use by each
other, and a dead join without an alias cannot be removed at all. When there is neither
(`Query.Unwinds`), one of the dead joins can be removed as long as there are any
(`Unwinds.exists_checkedRemoval`). Checked removals then lead to the pruned query and stop nowhere
else (`checkedRemovals_agree_with_prune`).
-/

open Relation

namespace JoinGraph.Query

variable {q r : Query} {j : Join} {b c : Binding}

/-- A join that is there is removed, and the check does not refuse it. -/
def CheckedRemoval (q r : Query) : Prop :=
  ∃ a, q.hasJoin a = true ∧ q.removeChecked a = .ok r

/-- One dead binding depends on another. -/
def DeadDependency (q : Query) (b c : Binding) : Prop :=
  b ∉ q.live ∧ c ∉ q.live ∧ c ∈ (DependencyGraph.ofQuery q).dependencies b

/-- Nothing keeps checked removal from a dead join: each has an alias, and they do not depend on
each other in a cycle. -/
structure Unwinds (q : Query) : Prop where
  named : ∀ j ∈ q.deadJoins, j.name ≠ none
  acyclic : ∀ b, ¬ TransGen q.DeadDependency b b

/-! ### Sequences of removals -/

/-- A checked removal takes one dead join out. -/
theorem CheckedRemoval.exists_restrict (h : q.WellFormed) (hr : CheckedRemoval q r) :
    ∃ j ∈ q.joins, j.index ∉ q.live ∧ r = q.restrict fun b => decide (b ≠ j.index) := by
  obtain ⟨a, hheld, hok⟩ := hr
  obtain ⟨rfl, huses⟩ := removeChecked_cases hok
  obtain ⟨j, hj⟩ := Option.isSome_iff_exists.1 hheld
  obtain ⟨hmem, -⟩ := mem_joins_of_join? hj
  exact ⟨j, hmem, (huses j hj).not_mem_live h hmem, remove_eq_restrict h hj⟩

/-- A join with an alias that nothing asks for can be removed. -/
theorem Unused.checkedRemoval {a : Alias} (hunused : q.Unused j.index) (h : q.WellFormed)
    (hj : j ∈ q.joins) (hname : j.name = some a) : CheckedRemoval q (q.remove a) := by
  have hfound : q.join? a = some j := h.join?_eq_some hj hname
  refine ⟨a, by rw [hasJoin, hfound, Option.isSome_some], ?_⟩
  rw [removeChecked_eq hfound, if_pos (uses_eq_zero_iff.2 hunused)]

/-- Checked removals restrict a query, and all that is live is kept. -/
theorem exists_restrict_of_checkedRemovals (h : q.WellFormed)
    (hr : ReflTransGen CheckedRemoval q r) :
    ∃ keep : Binding → Bool, (∀ b ∈ q.live, keep b = true) ∧ r = q.restrict keep := by
  induction hr with
  | refl => exact ⟨fun _ => true, fun _ _ => rfl, (restrict_eq_self fun _ _ => rfl).symm⟩
  | tail _ hstep ih =>
    obtain ⟨keep, hkeep, rfl⟩ := ih
    obtain ⟨j, -, hdead, rfl⟩ := hstep.exists_restrict (h.restrict keep)
    -- What is dead after the first removals was dead before them.
    rw [live_restrict h hkeep] at hdead
    refine ⟨_, fun b hb => ?_, restrict_restrict q keep _⟩
    have hne : b ≠ j.index := fun hindex => hdead (hindex ▸ hb)
    simp [hne, hkeep b hb]

/-! ### Going on to the end -/

theorem deadDependency_of_restrict {keep : Binding → Bool} (h : q.WellFormed)
    (hkeep : ∀ b ∈ q.live, keep b = true) (hdep : (q.restrict keep).DeadDependency b c) :
    q.DeadDependency b c := by
  obtain ⟨hb, hc, hmem⟩ := hdep
  rw [live_restrict h hkeep] at hb hc
  refine ⟨hb, hc, (DependencyGraph.mem_dependencies_ofQuery_iff h).2 ?_⟩
  obtain ⟨j, hj, hindex, hmentions, hne, hpresent⟩ :=
    (DependencyGraph.mem_dependencies_ofQuery_iff (h.restrict keep)).1 hmem
  have hsub : (q.restrict keep).bindings ⊆ q.bindings :=
    List.cons_subset_cons _ ((joins_restrict_sublist q keep).map _).subset
  exact ⟨j, (mem_joins_restrict.1 hj).1, hindex, hmentions, hne, hsub hpresent⟩

theorem Unwinds.restrict {keep : Binding → Bool} (hq : q.Unwinds) (h : q.WellFormed)
    (hkeep : ∀ b ∈ q.live, keep b = true) : (q.restrict keep).Unwinds where
  named k hk := by
    obtain ⟨hmem, hnot⟩ := mem_deadJoins_iff.1 hk
    rw [live_restrict h hkeep] at hnot
    exact hq.named k (mem_deadJoins_iff.2 ⟨(mem_joins_restrict.1 hmem).1, hnot⟩)
  acyclic b hcycle :=
    hq.acyclic b (TransGen.mono (fun _ _ => deadDependency_of_restrict h hkeep) b b hcycle)

/-- Without cycles among dead joins, one of them is a dependency of no other. -/
theorem Unwinds.exists_independent (hq : q.Unwinds) (hdead : q.deadJoins ≠ []) :
    ∃ j ∈ q.deadJoins, ∀ k ∈ q.deadJoins, ¬ q.DeadDependency k.index j.index := by
  have horder : IsStrictOrder Binding (TransGen q.DeadDependency) :=
    { irrefl := hq.acyclic, trans := fun _ _ _ => TransGen.trans }
  -- There are finitely many dead bindings, so going from one to a dependent one comes to an end.
  have hfinite : {b | ∃ j ∈ q.deadJoins, j.index = b}.Finite :=
    (q.deadJoins.map (·.index)).finite_toSet.subset fun b ⟨j, hj, hindex⟩ =>
      List.mem_map.2 ⟨j, hj, hindex⟩
  have hwf := Set.wellFoundedOn_iff.1 (hfinite.wellFoundedOn (r := TransGen q.DeadDependency))
  obtain ⟨j, hj⟩ := List.exists_mem_of_ne_nil _ hdead
  obtain ⟨b, ⟨k, hk, rfl⟩, hmin⟩ :=
    hwf.has_min {b | ∃ j ∈ q.deadJoins, j.index = b} ⟨j.index, j, hj, rfl⟩
  refine ⟨k, hk, fun i hi hdep => ?_⟩
  exact hmin i.index ⟨i, hi, rfl⟩ ⟨.single hdep, ⟨i, hi, rfl⟩, ⟨k, hk, rfl⟩⟩

/-- Nothing asks for a dead join that no other dead join depends on. -/
theorem unused_of_independent (h : q.WellFormed) (hj : j ∈ q.deadJoins)
    (hindependent : ∀ k ∈ q.deadJoins, ¬ q.DeadDependency k.index j.index) :
    q.Unused j.index := by
  obtain ⟨hmem, hdead⟩ := mem_deadJoins_iff.1 hj
  have hlive : q.Sufficient {b | b ∈ q.live} := sufficient_live h
  have hpresent : j.index ∈ q.bindings := index_mem_bindings hmem
  refine ⟨fun hmentions => hdead (hlive.clause _ hpresent hmentions), ?_, ?_⟩
  · intro k hk hne hmentions
    by_cases hklive : k.index ∈ q.live
    · exact hdead (hlive.condition k hk hklive _ hpresent hmentions)
    · -- A dead join that mentions this one depends on it.
      refine hindependent k (mem_deadJoins_iff.2 ⟨hk, hklive⟩) ⟨hklive, hdead, ?_⟩
      exact (DependencyGraph.mem_dependencies_ofQuery_iff h).2
        ⟨k, hk, rfl, hmentions, hne.symm, hpresent⟩
  · intro k a hk hkname hnames
    obtain ⟨hkmem, hindex⟩ := mem_joins_of_joinAt? hk
    exact hdead (hindex ▸ hlive.preload k hkmem a hkname hnames)

/-- As long as there are dead joins, one of them can be removed. -/
theorem Unwinds.exists_checkedRemoval (hq : q.Unwinds) (h : q.WellFormed)
    (hdead : q.deadJoins ≠ []) : ∃ r, CheckedRemoval q r := by
  obtain ⟨j, hj, hindependent⟩ := hq.exists_independent hdead
  obtain ⟨a, hname⟩ := Option.ne_none_iff_exists'.1 (hq.named j hj)
  have hunused : q.Unused j.index := unused_of_independent h hj hindependent
  exact ⟨q.remove a, hunused.checkedRemoval h (mem_deadJoins_iff.1 hj).1 hname⟩

/-- Checked removals lead to the pruned query. -/
theorem Unwinds.checkedRemovals_to_prune (hq : q.Unwinds) (h : q.WellFormed) :
    ReflTransGen CheckedRemoval q q.prune := by
  -- Every removal leaves fewer joins.
  induction hn : q.joins.length using Nat.strong_induction_on generalizing q with
  | _ n ih =>
    by_cases hdead : q.deadJoins = []
    · have hlive : ∀ j ∈ q.joins, j.index ∈ q.live := by
        intro j hj
        by_contra hnot
        exact List.not_mem_nil (hdead ▸ mem_deadJoins_iff.2 ⟨hj, hnot⟩)
      rw [prune_eq_self hlive]
    · obtain ⟨r, hr⟩ := hq.exists_checkedRemoval h hdead
      obtain ⟨j, hj, hjdead, rfl⟩ := hr.exists_restrict h
      have hkeep : ∀ b ∈ q.live, decide (b ≠ j.index) = true :=
        fun b hb => decide_eq_true fun hindex => hjdead (hindex ▸ hb)
      have hlt : (q.restrict fun b => decide (b ≠ j.index)).joins.length < n := by
        rw [← hn]
        exact List.length_filter_lt_length_iff_exists.2 ⟨j, hj, by simp⟩
      have hrest := ih _ hlt (hq.restrict h hkeep) (h.restrict _) rfl
      rw [prune_restrict h hkeep] at hrest
      exact .head hr hrest

/-- In a pruned query nothing is left for checked removal. -/
theorem not_checkedRemoval_prune (h : q.WellFormed) : ¬ CheckedRemoval q.prune r := by
  intro hr
  obtain ⟨j, hj, hdead, -⟩ := hr.exists_restrict (h.steps (steps_prune q))
  rw [live_prune h] at hdead
  rw [prune_eq_restrict] at hj
  exact hdead (of_decide_eq_true (mem_joins_restrict.1 hj).2)

/-- Checked removals in whatever order take only dead joins out and leave the pruned query as it is.
When the dead joins have aliases and no cycles, the removals can go on until the query is pruned,
and they can stop nowhere else. -/
theorem checkedRemovals_agree_with_prune (h : q.WellFormed) :
    (∀ r, ReflTransGen CheckedRemoval q r →
        r.joins.Sublist q.joins ∧ (∀ j ∈ q.joins, j ∉ r.joins → j.index ∉ q.live)
          ∧ r.prune = q.prune)
      ∧ (q.Unwinds → ∀ r, ReflTransGen CheckedRemoval q r →
          ReflTransGen CheckedRemoval r q.prune
            ∧ ((∀ s, ¬ CheckedRemoval r s) ↔ r = q.prune)) := by
  constructor
  · intro r hr
    obtain ⟨keep, hkeep, rfl⟩ := exists_restrict_of_checkedRemovals h hr
    refine ⟨joins_restrict_sublist q keep, fun j hj hout hlive => ?_, prune_restrict h hkeep⟩
    exact hout (mem_joins_restrict.2 ⟨hj, hkeep j.index hlive⟩)
  · intro hq r hr
    obtain ⟨keep, hkeep, rfl⟩ := exists_restrict_of_checkedRemovals h hr
    have hend := (hq.restrict h hkeep).checkedRemovals_to_prune (h.restrict keep)
    rw [prune_restrict h hkeep] at hend
    refine ⟨hend, fun hstuck => ?_, fun heq s => ?_⟩
    · rcases hend.cases_head with heq | ⟨s, hs, -⟩
      · exact heq
      · exact absurd hs (hstuck s)
    · rw [heq]
      exact not_checkedRemoval_prune h

/-- Dependencies that all lead to earlier bindings make no cycle. -/
theorem unwinds_of_backward (h : q.WellFormed) (hnamed : ∀ j ∈ q.deadJoins, j.name ≠ none)
    (hbackward : ∀ j ∈ q.joins, ∀ b, j.on.Mentions b → b ≤ j.index) : q.Unwinds := by
  have hstep : ∀ b c, q.DeadDependency b c → c < b := by
    rintro b c ⟨-, -, hmem⟩
    obtain ⟨j, hj, rfl, hmentions, hne, -⟩ :=
      (DependencyGraph.mem_dependencies_ofQuery_iff h).1 hmem
    exact Nat.lt_of_le_of_ne (hbackward j hj c hmentions) hne
  have hlt : ∀ b c, TransGen q.DeadDependency b c → c < b := by
    intro b c hbc
    induction hbc with
    | single hdep => exact hstep _ _ hdep
    | tail _ hdep ih => exact Nat.lt_trans (hstep _ _ hdep) ih
  exact ⟨hnamed, fun b hb => Nat.lt_irrefl b (hlt b b hb)⟩

/-- Posts with their comments and the authors of the comments, none of which is asked for. -/
def unread : Query :=
  { ofRelation Blog.posts with
    joins := [{ Blog.comparing 1 1 0 with name := some Blog.commentsAlias },
      { Blog.comparing 2 2 1 with name := some Blog.authorAlias }]
    nextIndex := 3 }

/-- The comments are in use by the authors, but the authors can be removed, and then the
comments. -/
theorem checkedRemovals_agree_with_prune_unread :
    unread.WellFormed ∧ unread.Unwinds
      ∧ CheckedRemoval unread (unread.remove Blog.authorAlias)
      ∧ (unread.remove Blog.authorAlias).prune = unread.prune
      ∧ ReflTransGen CheckedRemoval (unread.remove Blog.authorAlias) unread.prune := by
  have h : unread.WellFormed := wellFormed_of_check rfl
  have hnamed : ∀ j ∈ unread.deadJoins, j.name ≠ none := fun j hj hname => by
    have hmem : none ∈ unread.joins.map (·.name) :=
      List.mem_map.2 ⟨j, (mem_deadJoins_iff.1 hj).1, hname⟩
    exact absurd hmem (by decide)
  have hbackward : ∀ j ∈ unread.joins, ∀ b, j.on.Mentions b → b ≤ j.index := by
    intro j hj b hb
    simp only [unread, List.mem_cons, List.not_mem_nil, or_false] at hj
    rcases hj with rfl | rfl
    · rcases Expr.mentions_equals_field_iff.1 hb with rfl | rfl <;> decide
    · rcases Expr.mentions_equals_field_iff.1 hb with rfl | rfl <;> decide
  have hq : unread.Unwinds := unwinds_of_backward h hnamed hbackward
  have hstep : CheckedRemoval unread (unread.remove Blog.authorAlias) :=
    ⟨Blog.authorAlias, rfl, by cbv⟩
  obtain ⟨hremovals, hunwinds⟩ := checkedRemovals_agree_with_prune h
  exact ⟨h, hq, hstep, (hremovals _ (.single hstep)).2.2, (hunwinds hq _ (.single hstep)).1⟩

end JoinGraph.Query
