import JoinGraph.Liveness
import JoinGraph.Proofs.Blog
import JoinGraph.Proofs.Reachability
import JoinGraph.Proofs.WellFormed
import Mathlib.Data.Finset.Card
import Mathlib.Order.Bounds.Defs

/-!
# Exact Liveness

A set of bindings of a query suffices when it holds the root and everything that a clause, a preload
or the condition of one of its joins asks for (`Query.Sufficient`). The live bindings are the least
such set: pruning keeps all that is needed and nothing else.

The work list on the dependency graph is compared with the naive algorithm, which starts from the
seeds and scans all join conditions again and again until a scan finds nothing new
(`Query.saturate`). The naive algorithm also finds bindings that the query does not have; apart from
those, both find the same, whatever cycles, self references and dangling references there are.
-/

namespace JoinGraph.Query

/-! ### The least sufficient set -/

/-- The bindings of a set suffice for the query: they are bindings of the query, and everything that
is asked for, by the query or by a join of the set, is in the set if the query has it. -/
structure Sufficient (q : Query) (S : Set Binding) : Prop where
  /-- The set holds bindings of the query only. -/
  present : ∀ b ∈ S, b ∈ q.bindings
  /-- The root is in the set. -/
  root : Binding.root ∈ S
  /-- Present bindings that a clause mentions are in the set. -/
  clause : ∀ b ∈ q.bindings, q.ClauseMentions b → b ∈ S
  /-- Joins whose alias a preload names are in the set. -/
  preload : ∀ j ∈ q.joins, ∀ a, j.name = some a → PreloadTree.Names q.preloads a → j.index ∈ S
  /-- With a join, the present bindings that its condition mentions are in the set. -/
  condition : ∀ j ∈ q.joins, j.index ∈ S → ∀ b ∈ q.bindings, j.on.Mentions b → b ∈ S

variable {q : Query} {b : Binding}

theorem mem_liveSeeds_iff : b ∈ q.liveSeeds ↔
    b = Binding.root ∨ q.ClauseMentions b
      ∨ ∃ a, PreloadTree.Names q.preloads a ∧ q.binding? a = some b := by
  rw [liveSeeds, List.mem_cons, List.mem_append, List.mem_filterMap, mem_clauseRefs_iff]
  simp only [mem_preloadNames_iff]

theorem mem_live_iff (h : q.WellFormed) :
    b ∈ q.live ↔ ∃ s ∈ q.liveSeeds, (DependencyGraph.ofQuery q).Reaches s b :=
  DependencyGraph.mem_reachableFrom_iff (DependencyGraph.nodup_bindings h)

theorem mem_live_of_mem_liveSeeds (h : q.WellFormed) (hb : b ∈ q.bindings)
    (hseed : b ∈ q.liveSeeds) : b ∈ q.live :=
  (mem_live_iff h).2 ⟨b, hseed, .refl hb⟩

theorem sufficient_live (h : q.WellFormed) : q.Sufficient {b | b ∈ q.live} where
  present b hb := by
    obtain ⟨s, -, hreach⟩ := (mem_live_iff h).1 hb
    exact hreach.mem_nodes
  root := mem_live_of_mem_liveSeeds h (root_mem_bindings q) (mem_liveSeeds_iff.2 (.inl rfl))
  clause b hb hmentions :=
    mem_live_of_mem_liveSeeds h hb (mem_liveSeeds_iff.2 (.inr (.inl hmentions)))
  preload j hj a hname hnames := by
    -- The alias is looked up, and it is this join that is found.
    have hbinding : q.binding? a = some j.index := by
      rw [binding?, h.join?_eq_some hj hname]
      rfl
    exact mem_live_of_mem_liveSeeds h (index_mem_bindings hj)
      (mem_liveSeeds_iff.2 (.inr (.inr ⟨a, hnames, hbinding⟩)))
  condition j hj hlive b hb hmentions := by
    by_cases hself : b = j.index
    · -- A self reference is no edge of the graph, and asks for nothing new.
      subst hself
      exact hlive
    · obtain ⟨s, hs, hreach⟩ := (mem_live_iff h).1 hlive
      have hdep : b ∈ (DependencyGraph.ofQuery q).dependencies j.index :=
        (DependencyGraph.mem_dependencies_ofQuery_iff h).2 ⟨j, hj, rfl, hmentions, hself, hb⟩
      exact (mem_live_iff h).2 ⟨s, hs, hreach.trans (.step hreach.mem_nodes hdep (.refl hb))⟩

/-- What a binding of a sufficient set reaches is in the set. -/
theorem Sufficient.mem_of_reaches {S : Set Binding} (hS : q.Sufficient S) (h : q.WellFormed)
    {c : Binding} (hb : b ∈ S) (hreach : (DependencyGraph.ofQuery q).Reaches b c) : c ∈ S := by
  induction hreach with
  | refl _ => exact hb
  | step _ hdep _ ih =>
    obtain ⟨j, hj, hindex, hmentions, -, hpresent⟩ :=
      (DependencyGraph.mem_dependencies_ofQuery_iff h).1 hdep
    exact ih (hS.condition j hj (hindex ▸ hb) _ hpresent hmentions)

theorem Sufficient.mem_of_mem_liveSeeds {S : Set Binding} (hS : q.Sufficient S)
    (hb : b ∈ q.bindings) (hseed : b ∈ q.liveSeeds) : b ∈ S := by
  rcases mem_liveSeeds_iff.1 hseed with rfl | hmentions | ⟨a, hnames, hbinding⟩
  · exact hS.root
  · exact hS.clause b hb hmentions
  · obtain ⟨j, hj, rfl⟩ := Option.map_eq_some_iff.1 hbinding
    obtain ⟨hmem, hname⟩ := mem_joins_of_join? hj
    exact hS.preload j hmem a hname hnames

/-- Every sufficient set holds the live bindings. -/
theorem Sufficient.mem_of_mem_live {S : Set Binding} (hS : q.Sufficient S) (h : q.WellFormed)
    (hb : b ∈ q.live) : b ∈ S := by
  obtain ⟨s, hseed, hreach⟩ := (mem_live_iff h).1 hb
  have hs : s ∈ S := hS.mem_of_mem_liveSeeds hreach.mem_nodes_left hseed
  exact hS.mem_of_reaches h hs hreach

/-! ### The naive algorithm -/

/-- One scan over joins: the condition of every join found so far adds what it refers to. What a
scan adds counts for the joins that follow in the same scan. -/
def rescan (found : Finset Binding) : List Join → Finset Binding
  | [] => found
  | j :: rest => rescan (if j.index ∈ found then found ∪ j.on.refs.toFinset else found) rest

/-- With every join that it holds, a set holds all that the condition of the join mentions. -/
def ClosedUnder (joins : List Join) (S : Set Binding) : Prop :=
  ∀ j ∈ joins, j.index ∈ S → ∀ b, j.on.Mentions b → b ∈ S

variable {joins : List Join} {found : Finset Binding}

theorem closedUnder_cons_iff {j : Join} {rest : List Join} {S : Set Binding} :
    ClosedUnder (j :: rest) S
      ↔ (j.index ∈ S → ∀ b, j.on.Mentions b → b ∈ S) ∧ ClosedUnder rest S :=
  List.forall_mem_cons

theorem subset_rescan : found ⊆ rescan found joins := by
  induction joins generalizing found with
  | nil => exact Finset.Subset.refl found
  | cons j rest ih =>
    refine Finset.Subset.trans ?_ ih
    split
    · exact Finset.subset_union_left
    · exact Finset.Subset.refl found

/-- A scan finds only what the conditions refer to. -/
theorem rescan_subset_union : rescan found joins ⊆ found ∪ (conditionRefs joins).toFinset := by
  induction joins generalizing found with
  | nil => exact Finset.subset_union_left
  | cons j rest ih =>
    intro b hb
    have hrest := ih hb
    simp only [conditionRefs, List.flatMap_cons, List.toFinset_append, Finset.mem_union] at hrest ⊢
    rcases hrest with hfound | hrest
    · split at hfound
      · rcases Finset.mem_union.1 hfound with hfound | hrefs
        · exact .inl hfound
        · exact .inr (.inl hrefs)
      · exact .inl hfound
    · exact .inr (.inr hrest)

/-- A scan stays in every closed set. -/
theorem rescan_subset {S : Set Binding} (hS : ClosedUnder joins S) (hfound : ↑found ⊆ S) :
    ↑(rescan found joins) ⊆ S := by
  induction joins generalizing found with
  | nil => exact hfound
  | cons j rest ih =>
    obtain ⟨hj, hrest⟩ := closedUnder_cons_iff.1 hS
    refine ih hrest ?_
    split
    · rename_i hindex
      intro b hb
      rcases Finset.mem_union.1 hb with hb | hb
      · exact hfound hb
      · exact hj (hfound hindex) b (Expr.mem_refs_iff_mentions.1 (List.mem_toFinset.1 hb))
    · exact hfound

/-- A scan that finds nothing new has a closed set before it. -/
theorem closedUnder_of_rescan_eq (h : rescan found joins = found) : ClosedUnder joins ↑found := by
  induction joins with
  | nil => exact List.forall_mem_nil _
  | cons j rest ih =>
    rw [rescan] at h
    -- The scan grows at every join, so nothing is found at the first one and nothing after it.
    have hfirst : (if j.index ∈ found then found ∪ j.on.refs.toFinset else found) = found := by
      refine Finset.Subset.antisymm (subset_rescan.trans h.subset) ?_
      split
      · exact Finset.subset_union_left
      · exact Finset.Subset.refl found
    rw [hfirst] at h
    refine closedUnder_cons_iff.2 ⟨fun hindex b hb => ?_, ih h⟩
    rw [if_pos (Finset.mem_coe.1 hindex)] at hfirst
    have hmem : b ∈ found ∪ j.on.refs.toFinset :=
      Finset.mem_union_right found (List.mem_toFinset.2 (Expr.mem_refs_iff_mentions.2 hb))
    exact hfirst ▸ hmem

/-- Scan until a scan finds nothing new. -/
def saturate (joins : List Join) (found : Finset Binding) : Finset Binding :=
  if rescan found joins = found then found else saturate joins (rescan found joins)
termination_by ((conditionRefs joins).toFinset \ found).card
decreasing_by
  rename_i hne
  -- Some reference that was not found before is found by the scan.
  have hgrow : found ⊂ rescan found joins :=
    Finset.ssubset_iff_subset_ne.2 ⟨subset_rescan, fun h => hne h.symm⟩
  obtain ⟨b, hb, hnot⟩ := Finset.exists_of_ssubset hgrow
  have href : b ∈ (conditionRefs joins).toFinset :=
    (Finset.mem_union.1 (rescan_subset_union hb)).resolve_left hnot
  refine Finset.card_lt_card (Finset.ssubset_iff_of_subset ?_ |>.2 ⟨b, ?_, ?_⟩)
  · exact Finset.sdiff_subset_sdiff (Finset.Subset.refl _) subset_rescan
  · exact Finset.mem_sdiff.2 ⟨href, hnot⟩
  · exact fun hmem => (Finset.mem_sdiff.1 hmem).2 hb

/-- Saturation gives the least closed set around what is found. -/
theorem isLeast_saturate (joins : List Join) (found : Finset Binding) :
    IsLeast {S : Set Binding | ↑found ⊆ S ∧ ClosedUnder joins S} ↑(saturate joins found) := by
  fun_induction saturate joins found with
  | case1 found hfix =>
    exact ⟨⟨Set.Subset.refl _, closedUnder_of_rescan_eq hfix⟩, fun S hS => hS.1⟩
  | case2 found hne ih =>
    -- A scan stays in every closed set, so the same sets are closed around what it found.
    obtain ⟨⟨hsub, hclosed⟩, hleast⟩ := ih
    have hgrow : (found : Set Binding) ⊆ ↑(rescan found joins) := Finset.coe_subset.2 subset_rescan
    refine ⟨⟨hgrow.trans hsub, hclosed⟩, fun S hS => hleast ⟨?_, hS.2⟩⟩
    exact rescan_subset hS.2 hS.1

/-- What the naive algorithm starts from: the root, all that clauses refer to, and the joins whose
alias a preload names. -/
def naiveSeeds (q : Query) : Finset Binding :=
  insert Binding.root
    (q.clauseRefs ++ (q.joins.filter fun j => j.name.any fun a => a ∈ q.preloadNames).map
      (·.index)).toFinset

/-- The live bindings by the naive algorithm. -/
def naiveLive (q : Query) : Finset Binding :=
  saturate q.joins q.naiveSeeds ∩ q.bindings.toFinset

theorem mem_naiveSeeds_iff : b ∈ q.naiveSeeds ↔
    b = Binding.root ∨ q.ClauseMentions b
      ∨ ∃ j ∈ q.joins, (∃ a, j.name = some a ∧ PreloadTree.Names q.preloads a) ∧ j.index = b := by
  rw [naiveSeeds, Finset.mem_insert, List.mem_toFinset, List.mem_append, mem_clauseRefs_iff,
    List.mem_map]
  simp only [List.mem_filter, Option.any_eq_true, decide_eq_true_eq, mem_preloadNames_iff,
    and_assoc]

theorem sufficient_naiveLive (q : Query) : q.Sufficient ↑q.naiveLive := by
  obtain ⟨⟨hseeds, hclosed⟩, -⟩ := isLeast_saturate q.joins q.naiveSeeds
  have hmem : ∀ b ∈ q.bindings, b ∈ q.naiveSeeds → b ∈ q.naiveLive := fun b hb hseed =>
    Finset.mem_inter.2 ⟨hseeds hseed, List.mem_toFinset.2 hb⟩
  refine ⟨fun b hb => ?_, ?_, fun b hb hmentions => ?_, fun j hj a hname hnames => ?_,
    fun j hj hindex b hb hmentions => ?_⟩
  · exact List.mem_toFinset.1 (Finset.mem_inter.1 hb).2
  · exact hmem _ (root_mem_bindings q) (mem_naiveSeeds_iff.2 (.inl rfl))
  · exact hmem b hb (mem_naiveSeeds_iff.2 (.inr (.inl hmentions)))
  · exact hmem _ (index_mem_bindings hj)
      (mem_naiveSeeds_iff.2 (.inr (.inr ⟨j, hj, ⟨a, hname, hnames⟩, rfl⟩)))
  · have hfound : b ∈ saturate q.joins q.naiveSeeds :=
      hclosed j hj (Finset.mem_inter.1 hindex).1 b hmentions
    exact Finset.mem_inter.2 ⟨hfound, List.mem_toFinset.2 hb⟩

/-- What the naive algorithm finds, and the query has, is in every sufficient set. -/
theorem Sufficient.naiveLive_subset {S : Set Binding} (hS : q.Sufficient S) :
    ↑q.naiveLive ⊆ S := by
  -- Bindings that the query does not have are found too, but they lead nowhere.
  have hclosed : ClosedUnder q.joins (S ∪ {b | b ∉ q.bindings}) := by
    intro j hj hindex b hmentions
    by_cases hb : b ∈ q.bindings
    · have hmem : j.index ∈ S := hindex.resolve_right (not_not_intro (index_mem_bindings hj))
      exact .inl (hS.condition j hj hmem b hb hmentions)
    · exact .inr hb
  have hseeds : ↑q.naiveSeeds ⊆ S ∪ {b | b ∉ q.bindings} := by
    intro b hseed
    by_cases hb : b ∈ q.bindings
    · rcases mem_naiveSeeds_iff.1 hseed with rfl | hmentions | ⟨j, hj, ⟨a, hname, hnames⟩, rfl⟩
      · exact .inl hS.root
      · exact .inl (hS.clause b hb hmentions)
      · exact .inl (hS.preload j hj a hname hnames)
    · exact .inr hb
  have hfound : ↑(saturate q.joins q.naiveSeeds) ⊆ S ∪ {b | b ∉ q.bindings} :=
    (isLeast_saturate q.joins q.naiveSeeds).2 ⟨hseeds, hclosed⟩
  intro b hb
  obtain ⟨hsaturate, hpresent⟩ := Finset.mem_inter.1 hb
  exact (hfound hsaturate).resolve_right (not_not_intro (List.mem_toFinset.1 hpresent))

/-! ### Exactness -/

/-- The live bindings of a well-formed query are each listed once, they are the least set of
bindings that suffices, and the naive algorithm finds the same. -/
theorem live_exact (h : q.WellFormed) :
    q.live.Pairwise (· < ·) ∧ IsLeast {S | q.Sufficient S} {b | b ∈ q.live}
      ∧ q.live.toFinset = q.naiveLive := by
  have hleast : IsLeast {S | q.Sufficient S} {b | b ∈ q.live} :=
    ⟨sufficient_live h, fun S hS b hb => Sufficient.mem_of_mem_live hS h hb⟩
  refine ⟨Binding.pairwise_ascending _, hleast, ?_⟩
  -- Two least sets are one.
  ext b
  rw [List.mem_toFinset]
  constructor
  · exact fun hb => hleast.2 (sufficient_naiveLive q) hb
  · exact fun hb => Sufficient.naiveLive_subset (sufficient_live h) hb

/-- The first two joins refer to each other, the third to itself and to a binding that is not there,
and the result shape to the first. -/
def tangled : Query :=
  { ofRelation Blog.posts with
    joins := [Blog.comparing 1 1 2, Blog.comparing 2 2 1, Blog.comparing 3 3 7]
    nextIndex := 4
    select := some (.row 1) }

theorem live_exact_tangled :
    tangled.WellFormed ∧ tangled.live.Pairwise (· < ·)
      ∧ IsLeast {S | tangled.Sufficient S} {b | b ∈ tangled.live}
      ∧ tangled.live.toFinset = tangled.naiveLive :=
  ⟨wellFormed_of_check rfl, live_exact (wellFormed_of_check rfl)⟩

end JoinGraph.Query
