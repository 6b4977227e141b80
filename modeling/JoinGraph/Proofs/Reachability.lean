import JoinGraph.Dependency
import JoinGraph.Proofs.Mention
import JoinGraph.Query.WellFormed

/-!
# Reachability in the Dependency Graph

The work list of `DependencyGraph.reachableFrom` finds exactly the bindings that some seed reaches
by dependency steps (`mem_reachableFrom_iff`). What it takes out of the unreached bindings is
reached (`exists_reaches_of_not_mem_unreachedFrom`), and when it is done nothing that is reached has
a dependency that is not (`not_mem_unreachedFrom_of_reaches`).

In the graph of a well-formed query the dependencies of a join are the other bindings of the query
that its condition mentions, and the root has none (`mem_dependencies_ofQuery_iff`).
-/

namespace JoinGraph.DependencyGraph

variable {g : DependencyGraph} {a b c : Binding}

theorem Reaches.trans (hab : g.Reaches a b) (hbc : g.Reaches b c) : g.Reaches a c := by
  induction hab with
  | refl _ => exact hbc
  | step hnode hdep _ ih => exact .step hnode hdep (ih hbc)

theorem Reaches.mem_nodes (h : g.Reaches a b) : b ∈ g.nodes := by
  induction h with
  | refl hnode => exact hnode
  | step _ _ _ ih => exact ih

theorem Reaches.mem_nodes_left (h : g.Reaches a b) : a ∈ g.nodes := by
  cases h with
  | refl hnode => exact hnode
  | step hnode _ _ => exact hnode

/-- What is followed leaves the unreached bindings, and nothing joins them. -/
theorem unreachedFrom_subset (unreached pending : List Binding) :
    g.unreachedFrom unreached pending ⊆ unreached := by
  fun_induction unreachedFrom g unreached pending with
  | case1 => exact fun _ h => h
  | case2 unreached b rest hb ih => exact fun c hc => List.mem_of_mem_erase (ih hc)
  | case3 unreached b rest hb ih => exact ih

/-- What leaves the unreached bindings is reached from a binding that was pending. -/
theorem exists_reaches_of_not_mem_unreachedFrom {unreached pending : List Binding}
    (hnodes : unreached ⊆ g.nodes) (hc : c ∈ unreached)
    (hout : c ∉ g.unreachedFrom unreached pending) : ∃ s ∈ pending, g.Reaches s c := by
  fun_induction unreachedFrom g unreached pending with
  | case1 => exact absurd hc hout
  | case2 unreached b rest hb ih =>
    by_cases hcb : c = b
    · subst hcb
      exact ⟨c, List.mem_cons_self, .refl (hnodes hc)⟩
    · have herase : unreached.erase b ⊆ g.nodes := fun d hd => hnodes (List.mem_of_mem_erase hd)
      obtain ⟨s, hs, hreach⟩ := ih herase ((List.mem_erase_of_ne hcb).2 hc) hout
      -- A dependency of `b` is reached by way of `b`.
      rcases List.mem_append.1 hs with hs | hs
      · exact ⟨b, List.mem_cons_self, .step (hnodes hb) hs hreach⟩
      · exact ⟨s, List.mem_cons_of_mem b hs, hreach⟩
  | case3 unreached b rest hb ih =>
    obtain ⟨s, hs, hreach⟩ := ih hnodes hc hout
    exact ⟨s, List.mem_cons_of_mem b hs, hreach⟩

/-- No pending binding is unreached in the end. -/
theorem not_mem_unreachedFrom_of_mem_pending {unreached pending : List Binding}
    (hnodup : unreached.Nodup) (hb : b ∈ pending) : b ∉ g.unreachedFrom unreached pending := by
  fun_induction unreachedFrom g unreached pending with
  | case1 => cases hb
  | case2 unreached d rest hd ih =>
    rcases List.mem_cons.1 hb with rfl | hb
    · -- Once erased it does not come back, as it was there only once.
      exact fun hmem => hnodup.not_mem_erase (unreachedFrom_subset _ _ hmem)
    · exact ih (hnodup.erase d) (List.mem_append_right _ hb)
  | case3 unreached d rest hd ih =>
    rcases List.mem_cons.1 hb with rfl | hb
    · exact fun hmem => hd (unreachedFrom_subset _ _ hmem)
    · exact ih hnodup hb

/-- The frontier invariant: when every dependency of a reached node is reached or pending to begin
with, every dependency of a reached node is reached in the end. -/
theorem dependency_not_mem_unreachedFrom (unreached pending : List Binding)
    (hnodup : unreached.Nodup)
    (hfrontier : ∀ x ∈ g.nodes, x ∉ unreached → ∀ y ∈ g.dependencies x,
      y ∉ unreached ∨ y ∈ pending) :
    ∀ x ∈ g.nodes, x ∉ g.unreachedFrom unreached pending → ∀ y ∈ g.dependencies x,
      y ∉ g.unreachedFrom unreached pending := by
  fun_induction unreachedFrom g unreached pending with
  | case1 unreached =>
    intro x hx hout y hy
    exact (hfrontier x hx hout y hy).resolve_right List.not_mem_nil
  | case2 unreached b rest hb ih =>
    refine ih (hnodup.erase b) fun x hx hout y hy => ?_
    by_cases hxb : x = b
    · -- `b` counts as reached from here on, and its dependencies have become pending.
      exact .inr (List.mem_append_left _ (hxb ▸ hy))
    · have hout' : x ∉ unreached := fun hmem => hout ((List.mem_erase_of_ne hxb).2 hmem)
      rcases hfrontier x hx hout' y hy with hy | hy
      · exact .inl fun hmem => hy (List.mem_of_mem_erase hmem)
      · rcases List.mem_cons.1 hy with rfl | hy
        · exact .inl hnodup.not_mem_erase
        · exact .inr (List.mem_append_right _ hy)
  | case3 unreached b rest hb ih =>
    refine ih hnodup fun x hx hout y hy => ?_
    rcases hfrontier x hx hout y hy with hy | hy
    · exact .inl hy
    · rcases List.mem_cons.1 hy with rfl | hy
      · exact .inl hb
      · exact .inr hy

/-- What a pending binding reaches is not unreached in the end. -/
theorem not_mem_unreachedFrom_of_reaches {pending : List Binding} (hnodup : g.nodes.Nodup)
    (ha : a ∈ pending) (h : g.Reaches a c) : c ∉ g.unreachedFrom g.nodes pending := by
  -- Nothing is reached to begin with, so the frontier invariant holds.
  have hclosed := dependency_not_mem_unreachedFrom g.nodes pending hnodup
    fun x hx hout => absurd hx hout
  have hstart := not_mem_unreachedFrom_of_mem_pending (g := g) hnodup ha
  clear ha
  induction h with
  | refl _ => exact hstart
  | step hnode hdep _ ih => exact ih (hclosed _ hnode hstart _ hdep)

/-- The work list finds exactly the bindings that some seed reaches. -/
theorem mem_reachableFrom_iff (hnodup : g.nodes.Nodup) {seeds : List Binding} :
    c ∈ g.reachableFrom seeds ↔ ∃ s ∈ seeds, g.Reaches s c := by
  rw [reachableFrom]
  simp only [Binding.mem_ascending, List.mem_filter, decide_eq_true_eq]
  constructor
  · rintro ⟨hc, hout⟩
    exact exists_reaches_of_not_mem_unreachedFrom (fun _ h => h) hc hout
  · rintro ⟨s, hs, hreach⟩
    exact ⟨hreach.mem_nodes, not_mem_unreachedFrom_of_reaches hnodup hs hreach⟩

/-! ### The graph of a query -/

variable {q : Query} {j : Join}

/-- The bindings of a well-formed query differ from each other. -/
theorem nodup_bindings (h : q.WellFormed) : q.bindings.Nodup := by
  rw [Query.bindings, List.nodup_cons]
  constructor
  · intro hroot
    obtain ⟨j, hj, hindex⟩ := List.mem_map.1 hroot
    exact absurd (h.positive j hj) (hindex ▸ Nat.lt_irrefl _)
  · exact h.ascending.imp fun hlt => Nat.ne_of_lt hlt

/-- The dependencies of a join are read off its condition. -/
theorem dependencies_ofQuery (h : q.WellFormed) (hj : j ∈ q.joins) :
    (ofQuery q).dependencies j.index = dependenciesOf q.bindings j := by
  rw [dependencies, ofQuery, List.find?_map]
  have hfind : q.joins.find? ((fun e => decide (e.1 = j.index)) ∘
      fun k => (k.index, dependenciesOf q.bindings k)) = some j := h.joinAt?_eq_some hj
  rw [hfind]
  rfl

theorem dependencies_ofQuery_eq_nil (hb : ∀ j ∈ q.joins, j.index ≠ b) :
    (ofQuery q).dependencies b = [] := by
  have hfind : (ofQuery q).edges.find? (fun e => decide (e.1 = b)) = none := by
    rw [ofQuery, List.find?_eq_none]
    intro e he
    obtain ⟨j, hj, rfl⟩ := List.mem_map.1 he
    simpa using hb j hj
  rw [dependencies, hfind]
  rfl

/-- A binding depends on another exactly when it belongs to a join whose condition mentions the
other, and the other is a binding of the query. -/
theorem mem_dependencies_ofQuery_iff (h : q.WellFormed) :
    c ∈ (ofQuery q).dependencies b ↔
      ∃ j ∈ q.joins, j.index = b ∧ j.on.Mentions c ∧ c ≠ b ∧ c ∈ q.bindings := by
  constructor
  · intro hc
    by_cases hb : ∃ j ∈ q.joins, j.index = b
    · obtain ⟨j, hj, rfl⟩ := hb
      rw [dependencies_ofQuery h hj, dependenciesOf, List.mem_filter, Expr.mem_refSet,
        Expr.mem_refs_iff_mentions, decide_eq_true_eq] at hc
      exact ⟨j, hj, rfl, hc.1, hc.2⟩
    · have hnone : ∀ j ∈ q.joins, j.index ≠ b := fun j hj hindex => hb ⟨j, hj, hindex⟩
      rw [dependencies_ofQuery_eq_nil hnone] at hc
      cases hc
  · rintro ⟨j, hj, rfl, hmentions, hne, hmem⟩
    rw [dependencies_ofQuery h hj, dependenciesOf, List.mem_filter, Expr.mem_refSet,
      Expr.mem_refs_iff_mentions, decide_eq_true_eq]
    exact ⟨hmentions, hne, hmem⟩

end JoinGraph.DependencyGraph
