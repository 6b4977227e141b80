import JoinGraph.Proofs.Blog
import JoinGraph.Proofs.Expansion
import JoinGraph.Proofs.Preload.Chains
import JoinGraph.Proofs.WellFormed

/-!
# The Shape of an Expansion

A node of a specification asks for rows that nest along a chain: the associations around it, from
the outermost, and then its own, each under its alias (`Spec.nodes`). The trees of an expansion have
exactly these chains (`forestChains_of_expandNode`), but they are merged, and a merge compares
aliases only. When a lead makes two different associations generate one alias, the first one gives
the merged node its name, and the other one is not in the preloads under its own
(`not_nodes_of_expand`).

What holds of the preloads is `nodes_of_expand`: the aliases of every node are always there, and its
names as well unless an earlier node has other names under these aliases.
-/

namespace JoinGraph

open Chain PreloadTree

namespace Spec

mutual

/-- The nodes of a specification below a lead, in preorder, each as the chain that it asks for. -/
def nodesBelow (lead : String) : Spec → List Chain
  | relation name => [[(name, lead ++ name)]]
  | seq items => itemNodesBelow lead items
  | nested name sub =>
    [(name, lead ++ name)] :: (sub.nodesBelow lead).map ((name, lead ++ name) :: ·)
  | prefixed extra sub => sub.nodesBelow (lead ++ extra)

def itemNodesBelow (lead : String) : List Spec → List Chain
  | [] => []
  | item :: rest => item.nodesBelow lead ++ itemNodesBelow lead rest

end

/-- The nodes of a specification, in preorder. -/
def nodes (spec : Spec) : List Chain := spec.nodesBelow ""

end Spec

namespace Query

variable {e : Expander} {q r : Query} {site : ExpansionSite} {spec : Spec}
  {forest : List PreloadTree}

/-- The chains in the trees of an expansion are those that the specification asks for, in the same
order. -/
theorem forestChains_of_expandNode (h : q.expandNode e site spec = .ok (r, forest)) :
    forestChains forest = spec.nodesBelow site.lead := by
  have hrules : ExpansionRules e
      (fun _ site spec _ forest => forestChains forest = spec.nodesBelow site.lead)
      (fun _ site _ items _ forest =>
        forestChains forest = Spec.itemNodesBelow site.lead items) :=
    { relation := by
        intro q site name join hjoin
        obtain ⟨_, _, _, _, -, -, -, halias, -⟩ := associationJoin_eq_ok_iff.1 hjoin
        rw [forestChains_cons, forestChains_nil, chains_eq, Spec.nodesBelow, leaf, halias]
        simp [forestChains_nil]
      seq := by
        intro q site items r forest hitems
        rw [hitems, Spec.nodesBelow]
      nested := by
        intro q site name sub join r children hjoin hsub
        obtain ⟨_, _, _, _, -, -, -, halias, -⟩ := associationJoin_eq_ok_iff.1 hjoin
        rw [forestChains_cons, forestChains_nil, chains_eq, Spec.nodesBelow, hsub, halias,
          List.append_nil]
        rfl
      prefixed := by
        intro q site lead sub r forest hsub
        rw [hsub, Spec.nodesBelow]
      nil := by
        intro q site index
        rw [Spec.itemNodesBelow, forestChains_nil]
      cons := by
        intro q site index item rest r s trees more hitem hrest
        rw [forestChains_append, hitem, hrest, Spec.itemNodesBelow]
        rfl }
  exact expandNode_induction hrules h

theorem forestChains_forest (h : q.expand e spec = .ok r) :
    forestChains spec.forest = spec.nodes := by
  obtain ⟨s, hs, -⟩ := expand_eq_ok_iff.1 h
  exact forestChains_of_expandNode hs

/-- After an expansion of a query without preloads, the aliases of every node are found in the
preloads, from the top down. Its names are found with them when no earlier node has other names
under these aliases. When no node has two associations below it under one alias, its names are found
exactly when each of them is that of the first node with the aliases down to it. -/
theorem nodes_of_expand (hpreloads : q.preloads = []) (h : q.expand e spec = .ok r) {node : Chain}
    (hnode : node ∈ spec.nodes) :
    (∃ chain ∈ forestChains r.preloads, chain.path = node.path)
      ∧ (Uncontested spec.nodes node → node ∈ forestChains r.preloads)
      ∧ ((∀ t ∈ spec.forest, Unrepeated t.children) →
          (node ∈ forestChains r.preloads ↔
            ∀ part : Chain, part <+: node → firstName? spec.nodes part.path = part.name?)) := by
  rw [preloads_expand h, hpreloads]
  rw [← forestChains_forest h] at hnode ⊢
  refine ⟨exists_mem_forestChains_merge [] hnode, fun huncontested => ?_, fun hspec => ?_⟩
  · have hstart : Consistent (forestChains []) node := by
      rw [forestChains_nil]
      exact consistent_nil node
    exact mem_forestChains_merge hstart huncontested
  · have hmerge : Unrepeated (merge [] spec.forest) := unrepeated_nil.merge_of_forall hspec
    have hfirst : ∀ p, firstName? (forestChains (merge [] spec.forest)) p
        = firstName? (forestChains spec.forest) p := by
      intro p
      rw [firstName?_merge unrepeated_nil hspec, forestChains_nil, firstName?_nil, Option.none_or]
    rw [mem_forestChains_iff_firstName? hmerge (ne_nil_of_mem_forestChains hnode)]
    simp only [hfirst]

/-- Declarations by which posts have two associations with comments, one of them under a name that a
lead can make of the other. -/
def recentSchema : Schema := ⟨[
  ⟨Blog.posts, [], [⟨"comments", .hasMany, Blog.comments, none, some "post_id"⟩,
    ⟨"recent_comments", .hasMany, Blog.comments, none, some "post_id"⟩]⟩,
  ⟨Blog.comments, [], [⟨"author", .belongsTo, Blog.users, some "user_id", none⟩]⟩,
  ⟨Blog.users, [], []⟩]⟩

/-- The catalog of these declarations. -/
def recentCatalog : Catalog := ⟨[
  ⟨Blog.posts, [], [⟨"comments", .hasMany, Blog.posts, Blog.comments, "id", "post_id"⟩,
    ⟨"recent_comments", .hasMany, Blog.posts, Blog.comments, "id", "post_id"⟩],
    Catalog.inlineOrigin⟩,
  ⟨Blog.comments, [], [⟨"author", .belongsTo, Blog.comments, Blog.users, "user_id", "id"⟩],
    Catalog.inlineOrigin⟩,
  ⟨Blog.users, [], [], Catalog.inlineOrigin⟩]⟩

theorem ofSchema_recentSchema : Catalog.ofSchema recentSchema = .ok recentCatalog := by rfl

/-- The recent comments, and under a lead the comments with their authors. -/
def recentSpec : Spec :=
  .seq [.relation "recent_comments",
    .prefixed "recent_" (.nested "comments" (.relation "author"))]

/-- Posts are expanded with these comments to the trees of the first association, with the author
below it. -/
private theorem exists_expand_recentSpec :
    ∃ r, (ofRelation Blog.posts).expand ⟨recentCatalog.provider, .left⟩ recentSpec = .ok r
      ∧ forestChains r.preloads = [[("recent_comments", "recent_comments")],
          [("recent_comments", "recent_comments"), ("author", "recent_author")]] :=
  ⟨_, rfl, by decide⟩

/-- The recent comments come first and keep their name. The author is found below them by its
aliases, but not by its names. -/
theorem nodes_of_expand_recentSpec :
    ∃ r, (ofRelation Blog.posts).expand ⟨recentCatalog.provider, .left⟩ recentSpec = .ok r
      ∧ [("recent_comments", "recent_comments")] ∈ forestChains r.preloads
      ∧ (∃ chain ∈ forestChains r.preloads, chain.path = ["recent_comments", "recent_author"])
      ∧ [("comments", "recent_comments"), ("author", "recent_author")]
          ∉ forestChains r.preloads := by
  obtain ⟨r, hr, -⟩ := exists_expand_recentSpec
  have hcomments : [("recent_comments", "recent_comments")] ∈ recentSpec.nodes := by decide
  have hauthor : [("comments", "recent_comments"), ("author", "recent_author")]
      ∈ recentSpec.nodes := by decide
  have hauthorAlone : Unrepeated [leaf "author" ⟨"recent_author", by decide⟩] :=
    unrepeated_cons_iff.2 ⟨List.not_mem_nil, unrepeated_nil, unrepeated_nil⟩
  have hspec : ∀ t ∈ recentSpec.forest, Unrepeated t.children :=
    List.forall_mem_cons.2 ⟨unrepeated_nil, List.forall_mem_singleton.2 hauthorAlone⟩
  obtain ⟨-, hkept, -⟩ := nodes_of_expand rfl hr hcomments
  obtain ⟨haliases, -, hnames⟩ := nodes_of_expand rfl hr hauthor
  refine ⟨r, hr, hkept ⟨[], _, rfl, consistent_nil _⟩, haliases, fun hmem => ?_⟩
  -- The first node under the first alias has another name.
  have hfirst := (hnames hspec).1 hmem [("comments", "recent_comments")] (by decide)
  exact absurd hfirst (by decide)

/-- A node of a specification need not be in the preloads under its own names. -/
theorem not_nodes_of_expand :
    ¬ ∀ (schema : Schema) (c : Catalog) (qualifier : Qualifier) (q r : Query) (spec : Spec),
      Catalog.ofSchema schema = .ok c → q.WellFormed → q.preloads = [] →
      q.expand ⟨c.provider, qualifier⟩ spec = .ok r →
      ∀ node ∈ spec.nodes, node ∈ forestChains r.preloads := by
  intro h
  obtain ⟨r, hr, hpreloads⟩ := exists_expand_recentSpec
  have hmem := h recentSchema recentCatalog .left (ofRelation Blog.posts) r recentSpec
    ofSchema_recentSchema (wellFormed_ofSource _) rfl hr [("comments", "recent_comments")]
    (by decide)
  rw [hpreloads] at hmem
  exact absurd hmem (by decide)

end Query

end JoinGraph
