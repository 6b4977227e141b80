import JoinGraph.Proofs.Blog
import JoinGraph.Proofs.Reachability
import JoinGraph.Proofs.WellFormed
import Mathlib.Data.List.Sort
import Mathlib.Logic.Relation

/-!
# The Dependency Graph of a Query

A join depends on the other bindings of the query that its condition mentions (`Query.DependsOn`).
The dependency graph shows this relation from both of its ends (`DependencyGraph.Depicts`), each
binding once however often a condition mentions it, and the work list computes its reflexive and
transitive closure (`mem_reachableFrom_ofQuery_iff`).

The laws of the closure follow from what its members are: it looks at the set of the seeds only
(`reachableFrom_congr`), the seeds of two lists reach what one of the lists reaches
(`mem_reachableFrom_append_iff`), and nothing new is reached from what is reached
(`reachableFrom_reachableFrom`).
-/

open Relation

namespace JoinGraph

namespace Query

/-- The first binding is that of a join whose condition mentions the second, another binding of the
query. -/
def DependsOn (q : Query) (b c : Binding) : Prop :=
  ∃ j ∈ q.joins, j.index = b ∧ j.on.Mentions c ∧ c ≠ b ∧ c ∈ q.bindings

/-- What depends on something is a binding of the query. -/
theorem DependsOn.mem_bindings {q : Query} {b c : Binding} (h : q.DependsOn b c) :
    b ∈ q.bindings := by
  obtain ⟨j, hj, rfl, -⟩ := h
  exact index_mem_bindings hj

end Query

namespace DependencyGraph

variable {g : DependencyGraph} {b c : Binding} {seeds seeds' : List Binding}

/-! ### Laws of reachability -/

theorem pairwise_reachableFrom (g : DependencyGraph) (seeds : List Binding) :
    (g.reachableFrom seeds).Pairwise (· < ·) :=
  Binding.pairwise_ascending _

/-- What is reached is listed in one way only. -/
theorem reachableFrom_eq_of_mem_iff
    (h : ∀ b, b ∈ g.reachableFrom seeds ↔ b ∈ g.reachableFrom seeds') :
    g.reachableFrom seeds = g.reachableFrom seeds' :=
  (pairwise_reachableFrom g seeds).eq_of_mem_iff (pairwise_reachableFrom g seeds') h

/-- Neither the order of the seeds matters nor how often they are listed. -/
theorem reachableFrom_congr (hnodup : g.nodes.Nodup) (h : ∀ s, s ∈ seeds ↔ s ∈ seeds') :
    g.reachableFrom seeds = g.reachableFrom seeds' := by
  refine reachableFrom_eq_of_mem_iff fun b => ?_
  rw [mem_reachableFrom_iff hnodup, mem_reachableFrom_iff hnodup]
  simp only [h]

/-- The seeds of two lists reach what the seeds of one of them reach. -/
theorem mem_reachableFrom_append_iff (hnodup : g.nodes.Nodup) :
    b ∈ g.reachableFrom (seeds ++ seeds')
      ↔ b ∈ g.reachableFrom seeds ∨ b ∈ g.reachableFrom seeds' := by
  simp only [mem_reachableFrom_iff hnodup, List.mem_append, or_and_right, exists_or]

/-- What is reached is closed under reaching. -/
theorem reachableFrom_reachableFrom (hnodup : g.nodes.Nodup) (seeds : List Binding) :
    g.reachableFrom (g.reachableFrom seeds) = g.reachableFrom seeds := by
  refine reachableFrom_eq_of_mem_iff fun b => ?_
  rw [mem_reachableFrom_iff hnodup]
  constructor
  · -- What was reached stands for a seed that leads to it.
    rintro ⟨c, hc, hreach⟩
    obtain ⟨s, hs, hreach'⟩ := (mem_reachableFrom_iff hnodup).1 hc
    exact (mem_reachableFrom_iff hnodup).2 ⟨s, hs, hreach'.trans hreach⟩
  · intro hb
    obtain ⟨s, -, hreach⟩ := (mem_reachableFrom_iff hnodup).1 hb
    exact ⟨b, hb, .refl hreach.mem_nodes⟩

/-! ### Dependencies and dependents -/

theorem mem_dependents_iff : b ∈ g.dependents c ↔ b ∈ g.nodes ∧ c ∈ g.dependencies b := by
  rw [dependents, Binding.mem_ascending, List.mem_filter, decide_eq_true_eq]

variable {q : Query}

/-- The dependencies in the graph are those of the query. -/
theorem mem_dependencies_ofQuery_iff_dependsOn (h : q.WellFormed) :
    c ∈ (ofQuery q).dependencies b ↔ q.DependsOn b c :=
  mem_dependencies_ofQuery_iff h

theorem pairwise_dependencies_ofQuery (h : q.WellFormed) (b : Binding) :
    ((ofQuery q).dependencies b).Pairwise (· < ·) := by
  by_cases hb : ∃ j ∈ q.joins, j.index = b
  · obtain ⟨j, hj, rfl⟩ := hb
    rw [dependencies_ofQuery h hj, dependenciesOf]
    exact (Binding.pairwise_ascending j.on.refs).filter _
  · rw [dependencies_ofQuery_eq_nil fun j hj hindex => hb ⟨j, hj, hindex⟩]
    exact .nil

/-- The graph shows the bindings of the query and the dependencies between them. -/
structure Depicts (g : DependencyGraph) (q : Query) : Prop where
  /-- The nodes are the root and the joins. -/
  contains_iff : ∀ b, g.contains b = true ↔ b = Binding.root ∨ ∃ j ∈ q.joins, j.index = b
  /-- Dependencies are listed in order, and once each. -/
  dependencies_ascending : ∀ b, (g.dependencies b).Pairwise (· < ·)
  mem_dependencies_iff : ∀ b c, c ∈ g.dependencies b ↔ q.DependsOn b c
  dependencies_root : g.dependencies Binding.root = []
  dependencies_unknown : ∀ b, b ∉ q.bindings → g.dependencies b = []
  /-- Dependents are listed in order, and once each. -/
  dependents_ascending : ∀ b, (g.dependents b).Pairwise (· < ·)
  mem_dependents_iff : ∀ b c, b ∈ g.dependents c ↔ c ∈ g.dependencies b

theorem depicts_ofQuery (h : q.WellFormed) : (ofQuery q).Depicts q where
  contains_iff b := by rw [contains, decide_eq_true_eq, ofQuery, Query.mem_bindings]
  dependencies_ascending := pairwise_dependencies_ofQuery h
  mem_dependencies_iff _ _ := mem_dependencies_ofQuery_iff h
  dependencies_root :=
    dependencies_ofQuery_eq_nil fun j hj hindex => (Nat.ne_of_lt (h.positive j hj)).symm hindex
  dependencies_unknown b hb :=
    dependencies_ofQuery_eq_nil fun j hj hindex => hb (hindex ▸ Query.index_mem_bindings hj)
  dependents_ascending _ := Binding.pairwise_ascending _
  mem_dependents_iff b c := by
    rw [mem_dependents_iff, and_iff_right_iff_imp]
    -- Dependents are looked for among the nodes only, but only nodes have dependencies.
    exact fun hc => ((mem_dependencies_ofQuery_iff_dependsOn h).1 hc).mem_bindings

/-! ### Reachability in the graph of a query -/

/-- Reaching is depending by any number of steps. -/
theorem reaches_ofQuery_iff (h : q.WellFormed) :
    (ofQuery q).Reaches b c ↔ b ∈ q.bindings ∧ ReflTransGen q.DependsOn b c := by
  constructor
  · intro hreach
    induction hreach with
    | refl hnode => exact ⟨hnode, .refl⟩
    | step hnode hdep _ ih => exact ⟨hnode, ih.2.head ((mem_dependencies_ofQuery_iff h).1 hdep)⟩
  · rintro ⟨hb, hsteps⟩
    -- From the first step on, as the graph follows dependencies only from where it has a node.
    induction hsteps using ReflTransGen.head_induction_on with
    | refl => exact .refl hb
    | head hstep _ ih =>
      have hdep := (mem_dependencies_ofQuery_iff h).2 hstep
      obtain ⟨j, -, -, -, -, hpresent⟩ := hstep
      exact .step hb hdep (ih hpresent)

/-- The work list finds the present seeds and all that they depend on, directly or not. -/
theorem mem_reachableFrom_ofQuery_iff (h : q.WellFormed) :
    b ∈ (ofQuery q).reachableFrom seeds
      ↔ ∃ s ∈ seeds, s ∈ q.bindings ∧ ReflTransGen q.DependsOn s b := by
  have hnodup : (ofQuery q).nodes.Nodup := nodup_bindings h
  simp only [mem_reachableFrom_iff hnodup, reaches_ofQuery_iff h]

/-- The dependency graph shows the bindings and dependencies of the query. From a list of seeds,
whatever it lists and in whatever order, the present seeds and all that they depend on, directly or
not, are reached. So the set of seeds decides what is reached, the seeds of two lists reach what one
of the lists reaches, and from what is reached nothing else is. -/
theorem graph_exact (h : q.WellFormed) :
    (ofQuery q).Depicts q
      ∧ (∀ seeds, ((ofQuery q).reachableFrom seeds).Pairwise (· < ·)
        ∧ ∀ b, b ∈ (ofQuery q).reachableFrom seeds
          ↔ ∃ s ∈ seeds, s ∈ q.bindings ∧ ReflTransGen q.DependsOn s b)
      ∧ (∀ seeds seeds' : List Binding, (∀ s, s ∈ seeds ↔ s ∈ seeds') →
          (ofQuery q).reachableFrom seeds = (ofQuery q).reachableFrom seeds')
      ∧ (∀ seeds seeds' b, b ∈ (ofQuery q).reachableFrom (seeds ++ seeds')
          ↔ b ∈ (ofQuery q).reachableFrom seeds ∨ b ∈ (ofQuery q).reachableFrom seeds')
      ∧ ∀ seeds, (ofQuery q).reachableFrom ((ofQuery q).reachableFrom seeds)
          = (ofQuery q).reachableFrom seeds := by
  have hnodup : (ofQuery q).nodes.Nodup := nodup_bindings h
  refine ⟨depicts_ofQuery h, fun seeds => ⟨pairwise_reachableFrom _ seeds, fun b => ?_⟩,
    fun seeds seeds' => reachableFrom_congr hnodup, fun seeds seeds' b => ?_,
    reachableFrom_reachableFrom hnodup⟩
  · exact mem_reachableFrom_ofQuery_iff h
  · exact mem_reachableFrom_append_iff hnodup

/-- Two joins that depend on each other, and a third that mentions one of them twice, the root,
itself, and a binding that is missing. -/
def entwined : Query :=
  { Query.ofRelation Blog.posts with
    joins := [Blog.comparing 1 1 2, Blog.comparing 2 2 1,
      { Blog.comparing 4 2 7 with on := .seq [.row 2, .equals (.row 2) (.row 7), .row 4, .row 0] }]
    nextIndex := 6 }

/-- The third join leads to all bindings, and a seed that is missing adds nothing. -/
theorem graph_exact_entwined :
    entwined.WellFormed
      ∧ (ofQuery entwined).dependencies 4 = [0, 2] ∧ (ofQuery entwined).dependents 2 = [1, 4]
      ∧ (ofQuery entwined).Depicts entwined
      ∧ (1 ∈ (ofQuery entwined).reachableFrom [7, 4, 7]
        ∧ 7 ∉ (ofQuery entwined).reachableFrom [7, 4, 7])
      ∧ (ofQuery entwined).reachableFrom [7, 4, 7] = (ofQuery entwined).reachableFrom [4, 7] := by
  have h : entwined.WellFormed := Query.wellFormed_of_check rfl
  obtain ⟨hdepicts, hreached, hset, -, -⟩ := graph_exact h
  have hdependencies : (ofQuery entwined).dependencies 4 = [0, 2] := by decide +kernel
  have hfour : entwined.DependsOn 4 2 :=
    (hdepicts.mem_dependencies_iff 4 2).1 (by rw [hdependencies]; decide)
  have htwo : entwined.DependsOn 2 1 :=
    (hdepicts.mem_dependencies_iff 2 1).1 (by decide +kernel)
  refine ⟨h, hdependencies, by decide +kernel, hdepicts, ⟨?_, fun hseven => ?_⟩,
    hset _ _ fun s => ?_⟩
  · exact ((hreached _).2 1).2 ⟨4, by decide, by decide, .tail (.single hfour) htwo⟩
  · -- Binding 7 is missing, so it is neither a seed that counts nor a dependency.
    obtain ⟨s, hs, hpresent, hsteps⟩ := ((hreached _).2 7).1 hseven
    rcases hsteps.cases_tail with rfl | ⟨_, -, _, -, -, -, -, hmissing⟩
    · exact absurd hpresent (by decide)
    · exact absurd hmissing (by decide)
  · simp only [List.mem_cons, List.not_mem_nil, or_false]
    tauto

end DependencyGraph

end JoinGraph
