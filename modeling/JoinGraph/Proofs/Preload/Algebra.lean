import JoinGraph.Proofs.Blog
import JoinGraph.Proofs.Preload.Merge

/-!
# The Algebra of Merging

Whatever the forests, a merge keeps the first one in place and has the branches of both
(`mem_forestBranches_merge_iff`). When no siblings share an alias, it is a union: the trees of the
first forest come first, each with the tree of its alias merged into it, and the trees whose aliases
are new follow in their order (`merge_eq_union`). The union has no repeated siblings either
(`Unrepeated.merge`), and it is associative (`merge_assoc`).

Associativity comes down to one tree. It is merged either into a tree that has been there before,
and then the order of the two merges below it is a matter of induction; or into one that has just
come in, and then it can be merged before that tree comes in. In between, trees under other aliases
may come in, which makes no difference (`mergeTree_mergeAll_comm`).
-/

namespace JoinGraph.PreloadTree

variable {association association' : String} {name name' : Alias}
  {children children' : List PreloadTree} {update update' : List PreloadTree → List PreloadTree}
  {t : PreloadTree} {f g h : List PreloadTree} {p : List Alias}

/-! ### Branches -/

theorem mem_branches_iff :
    p ∈ t.branches ↔ p = [t.name] ∨ ∃ rest ∈ forestBranches t.children, t.name :: rest = p := by
  obtain ⟨association, name, children⟩ := t
  rw [branches, List.mem_cons, List.mem_map]

theorem mem_forestBranches_cons_iff :
    p ∈ forestBranches (t :: f) ↔ p ∈ t.branches ∨ p ∈ forestBranches f := by
  rw [forestBranches, List.mem_append]

theorem mem_forestBranches_append_iff :
    p ∈ forestBranches (f ++ g) ↔ p ∈ forestBranches f ∨ p ∈ forestBranches g := by
  induction f with
  | nil => rw [List.nil_append, forestBranches, or_iff_right List.not_mem_nil]
  | cons t rest ih =>
    rw [List.cons_append, mem_forestBranches_cons_iff, mem_forestBranches_cons_iff, ih, or_assoc]

/-- A merge has the branches of both forests and no others. -/
theorem mem_forestBranches_merge_iff :
    p ∈ forestBranches (merge f g) ↔ p ∈ forestBranches f ∨ p ∈ forestBranches g := by
  have hrules : MergeRules fun f g r => ∀ p,
      p ∈ forestBranches r ↔ p ∈ forestBranches f ∨ p ∈ forestBranches g :=
    { nil := fun f p => by rw [forestBranches, or_iff_left List.not_mem_nil]
      cons := by
        intro f t rest ht hrest p
        rw [hrest, ht, mem_forestBranches_cons_iff, mem_forestBranches_cons_iff, forestBranches,
          or_iff_left List.not_mem_nil, or_assoc]
      append := fun _ _ => mem_forestBranches_append_iff
      update := by
        intro before u after t hname _ hchildren p
        simp only [mem_forestBranches_append_iff, mem_forestBranches_cons_iff, mem_branches_iff,
          hchildren, hname]
        -- The branches that come in stand between those of the tree and those of the other trees.
        grind [forestBranches] }
  exact merge_induction hrules f g p

/-! ### Forests without repetitions -/

theorem unrepeated_nil : Unrepeated [] :=
  .intro List.nodup_nil fun _ ht => absurd ht List.not_mem_nil

theorem Unrepeated.names (hf : Unrepeated f) : (f.map (·.name)).Nodup := by
  cases hf with
  | intro names _ => exact names

theorem Unrepeated.of_mem (hf : Unrepeated f) (ht : t ∈ f) : Unrepeated t.children := by
  cases hf with
  | intro _ children => exact children t ht

theorem unrepeated_cons_iff : Unrepeated (t :: f) ↔
    t.name ∉ f.map (·.name) ∧ Unrepeated t.children ∧ Unrepeated f := by
  constructor
  · intro h
    obtain ⟨hname, hnames⟩ := List.nodup_cons.1 h.names
    exact ⟨hname, h.of_mem List.mem_cons_self,
      .intro hnames fun u hu => h.of_mem (List.mem_cons_of_mem t hu)⟩
  · rintro ⟨hname, hchildren, hf⟩
    exact .intro (List.nodup_cons.2 ⟨hname, hf.names⟩)
      (List.forall_mem_cons.2 ⟨hchildren, fun u hu => hf.of_mem hu⟩)

/-- An update or an append leaves the aliases of a forest as they are, or adds the new one. -/
theorem map_name_updateOrAppend (forest : List PreloadTree) :
    (updateOrAppend association name children update forest).map (·.name)
      = if name ∈ forest.map (·.name) then forest.map (·.name)
        else forest.map (·.name) ++ [name] := by
  induction forest with
  | nil => rfl
  | cons t rest ih =>
    rw [updateOrAppend]
    split
    · rename_i hname
      rw [if_pos (hname ▸ List.mem_cons_self)]
      rfl
    · rename_i hname
      have hmem : name ∈ (t :: rest).map (·.name) ↔ name ∈ rest.map (·.name) := by
        rw [List.map_cons, List.mem_cons, or_iff_right (Ne.symm hname)]
      rw [List.map_cons, ih]
      simp only [hmem]
      split <;> rfl

theorem mem_map_name_updateOrAppend {a : Alias} (ha : a ∈ f.map (·.name)) :
    a ∈ (updateOrAppend association name children update f).map (·.name) := by
  rw [map_name_updateOrAppend]
  split
  · exact ha
  · exact List.mem_append_left _ ha

private theorem nodup_names_concat (hf : (f.map (·.name)).Nodup) (ht : t.name ∉ f.map (·.name)) :
    ((f ++ [t]).map (·.name)).Nodup := by
  rw [List.map_append, List.nodup_append]
  refine ⟨hf, by simp, fun a ha b hb hab => ht ?_⟩
  obtain rfl : b = t.name := List.mem_singleton.1 hb
  exact hab ▸ ha

/-- Merging makes no repetitions, even when the incoming trees share aliases among themselves. -/
theorem Unrepeated.merge_of_forall (hf : Unrepeated f) (hg : ∀ t ∈ g, Unrepeated t.children) :
    Unrepeated (merge f g) := by
  have hrules : MergeRules fun f g r =>
      Unrepeated f → (∀ t ∈ g, Unrepeated t.children) → Unrepeated r :=
    { nil := fun _ hf _ => hf
      cons := by
        intro f t rest ht hrest hf hg
        obtain ⟨hgt, hgrest⟩ := List.forall_mem_cons.1 hg
        exact hrest (ht hf (List.forall_mem_singleton.2 hgt)) hgrest
      append := by
        intro f t hname hf hg
        exact .intro (nodup_names_concat hf.names hname)
          (List.forall_mem_append.2 ⟨fun _ ht => hf.of_mem ht, hg⟩)
      update := by
        intro before u after t _ _ hchildren hf hg
        have hbefore : ∀ v ∈ before, Unrepeated v.children :=
          fun v hv => hf.of_mem (List.mem_append_left _ hv)
        have hafter : ∀ v ∈ after, Unrepeated v.children :=
          fun v hv => hf.of_mem (List.mem_append_right _ (List.mem_cons_of_mem u hv))
        have hu : Unrepeated u.children :=
          hf.of_mem (List.mem_append_right _ List.mem_cons_self)
        have ht : Unrepeated t.children := hg t List.mem_cons_self
        -- The aliases stay as they are.
        refine .intro ?_ (List.forall_mem_append.2 ⟨hbefore, List.forall_mem_cons.2 ⟨?_, hafter⟩⟩)
        · simpa using hf.names
        · exact hchildren hu fun v hv => ht.of_mem hv }
  exact merge_induction hrules f g hf hg

/-- Merging forests without repetitions makes none. -/
theorem Unrepeated.merge (hf : Unrepeated f) (hg : Unrepeated g) : Unrepeated (merge f g) :=
  hf.merge_of_forall fun _ ht => hg.of_mem ht

/-! ### Merging as a union -/

/-- A tree with what the forest has under its alias merged into it. -/
def joined (g : List PreloadTree) (t : PreloadTree) : PreloadTree :=
  match first? g t.name with
  | some u => { t with children := merge t.children u.children }
  | none => t

theorem joined_of_not_mem (ht : t.name ∉ g.map (·.name)) : joined g t = t := by
  have hnone : first? g t.name = none := by
    rw [first?, List.find?_eq_none]
    exact fun u hu hname => ht (List.mem_map.2 ⟨u, hu, of_decide_eq_true hname⟩)
  rw [joined, hnone]

theorem joined_cons_of_eq {u : PreloadTree} (hname : u.name = t.name) :
    joined (u :: g) t = { t with children := merge t.children u.children } := by
  have hfirst : first? (u :: g) t.name = some u :=
    List.find?_cons_of_pos (decide_eq_true hname)
  rw [joined, hfirst]

theorem joined_cons_of_ne {u : PreloadTree} (hname : u.name ≠ t.name) :
    joined (u :: g) t = joined g t := by
  have hfirst : first? (u :: g) t.name = first? g t.name :=
    List.find?_cons_of_neg (by simpa using hname)
  rw [joined, hfirst, joined]

theorem name_joined (g : List PreloadTree) (t : PreloadTree) : (joined g t).name = t.name := by
  rw [joined]
  split <;> rfl

/-- Only the trees with a common alias are changed. -/
theorem map_joined_of_disjoint (hfg : ∀ t ∈ f, t.name ∉ g.map (·.name)) :
    f.map (joined g) = f := by
  rw [List.map_congr_left fun t ht => joined_of_not_mem (hfg t ht), List.map_id']

/-- Merging a tree whose alias is there changes the tree with this alias. -/
private theorem mergeTree_eq_map (hf : (f.map (·.name)).Nodup) (ht : t.name ∈ f.map (·.name)) :
    t.mergeTree f = f.map (joined [t]) := by
  obtain ⟨association, name, children⟩ := t
  rw [mergeTree]
  induction f with
  | nil => cases ht
  | cons u rest ih =>
    obtain ⟨hu, hrest⟩ := List.nodup_cons.1 hf
    rw [updateOrAppend, List.map_cons]
    split
    · rename_i hname
      -- No other tree has the alias.
      have hothers : ∀ v ∈ rest, v.name ∉ [(⟨association, name, children⟩ : PreloadTree)].map
          (·.name) := by
        intro v hv hmem
        have hv' : v.name = u.name := (List.mem_singleton.1 hmem).trans hname.symm
        exact hu (List.mem_map.2 ⟨v, hv, hv'⟩)
      rw [map_joined_of_disjoint hothers, joined_cons_of_eq hname.symm]
      rfl
    · rename_i hname
      have hmem : name ∈ rest.map (·.name) :=
        (List.mem_cons.1 ht).resolve_left (Ne.symm hname)
      rw [ih hrest hmem, joined_cons_of_ne (Ne.symm hname), joined_of_not_mem List.not_mem_nil]

/-- Merging forests in each of which siblings have different aliases gives the trees of the first
one, each with the tree of its alias merged into it, and then the trees with new aliases. -/
theorem merge_eq_union (hf : (f.map (·.name)).Nodup) (hg : (g.map (·.name)).Nodup) :
    merge f g = f.map (joined g) ++ g.filter fun u => decide (u.name ∉ f.map (·.name)) := by
  induction g generalizing f with
  | nil =>
    rw [merge_nil, List.filter_nil, List.append_nil,
      map_joined_of_disjoint fun _ _ => List.not_mem_nil]
  | cons u rest ih =>
    obtain ⟨hu, hrest⟩ := List.nodup_cons.1 hg
    -- The other trees to come have other aliases than this one.
    have hne : ∀ v ∈ rest, v.name ≠ u.name := fun v hv hname =>
      hu (List.mem_map.2 ⟨v, hv, hname⟩)
    rw [merge_cons]
    by_cases hmem : u.name ∈ f.map (·.name)
    · have htree : merge f [u] = f.map (joined [u]) := mergeTree_eq_map hf hmem
      have hnames : (f.map (joined [u])).map (·.name) = f.map (·.name) := by
        rw [List.map_map]
        exact List.map_congr_left fun t _ => name_joined [u] t
      have hjoined : ∀ t ∈ f, joined rest (joined [u] t) = joined (u :: rest) t := by
        intro t _
        by_cases hname : u.name = t.name
        · rw [joined_cons_of_eq hname, joined_cons_of_eq hname, joined_of_not_mem (hname ▸ hu)]
        · rw [joined_cons_of_ne hname, joined_cons_of_ne hname,
            joined_of_not_mem (g := []) List.not_mem_nil]
      rw [htree, ih (hnames ▸ hf) hrest, hnames, List.map_map,
        List.filter_cons_of_neg (by simpa using hmem)]
      exact congrArg (· ++ _) (List.map_congr_left hjoined)
    · have happend : ((f ++ [u]).map (·.name)).Nodup := nodup_names_concat hf hmem
      have htree : merge f [u] = f ++ [u] := merge_eq_append happend
      have hjoined : f.map (joined (u :: rest)) = f.map (joined rest) :=
        List.map_congr_left fun t ht =>
          joined_cons_of_ne fun hname => hmem (List.mem_map.2 ⟨t, ht, hname.symm⟩)
      have hnew : rest.filter (fun v => decide (v.name ∉ (f ++ [u]).map (·.name)))
          = rest.filter fun v => decide (v.name ∉ f.map (·.name)) := by
        refine List.filter_congr fun v hv => decide_eq_decide.2 (not_congr ?_)
        rw [List.map_append, List.mem_append, List.map_singleton, List.mem_singleton,
          or_iff_left (hne v hv)]
      rw [htree, ih happend hrest, hnew, hjoined, List.filter_cons_of_pos (by simpa using hmem),
        List.map_append, List.map_singleton, joined_of_not_mem hu, List.append_assoc]
      rfl

/-! ### Two merges -/

/-- Two updates under one alias are one update. -/
private theorem updateOrAppend_updateOrAppend (forest : List PreloadTree) :
    updateOrAppend association name children update
        (updateOrAppend association' name children' update' forest)
      = updateOrAppend association' name (update children') (fun f => update (update' f))
        forest := by
  induction forest with
  | nil => simp [updateOrAppend]
  | cons t rest ih =>
    by_cases hname : t.name = name
    · simp [updateOrAppend, hname]
    · simp [updateOrAppend, hname, ih]

/-- Updates under two aliases can be made in either order when the first alias is there. -/
private theorem updateOrAppend_comm (hne : name ≠ name') (hmem : name ∈ f.map (·.name)) :
    updateOrAppend association name children update
        (updateOrAppend association' name' children' update' f)
      = updateOrAppend association' name' children' update'
        (updateOrAppend association name children update f) := by
  induction f with
  | nil => cases hmem
  | cons t rest ih =>
    by_cases hname : t.name = name
    · simp [updateOrAppend, hname, hne]
    · have hrest : name ∈ rest.map (·.name) :=
        (List.mem_cons.1 hmem).resolve_left (Ne.symm hname)
      by_cases hname' : t.name = name'
      · simp [updateOrAppend, hname', hne.symm]
      · simp [updateOrAppend, hname, hname', ih hrest]

theorem mem_map_name_mergeTree {a : Alias} (ha : a ∈ f.map (·.name)) :
    a ∈ (t.mergeTree f).map (·.name) := by
  obtain ⟨association, name, children⟩ := t
  rw [mergeTree]
  exact mem_map_name_updateOrAppend ha

/-- After a merge, the alias of the tree is there. -/
theorem name_mem_map_name_mergeTree (t : PreloadTree) (f : List PreloadTree) :
    t.name ∈ (t.mergeTree f).map (·.name) := by
  obtain ⟨association, name, children⟩ := t
  rw [mergeTree, map_name_updateOrAppend]
  split
  · assumption
  · exact List.mem_append_right _ List.mem_cons_self

/-- A tree whose alias is there is merged before or after trees with other aliases. -/
theorem mergeTree_mergeAll_comm (hf : t.name ∈ f.map (·.name)) (hg : t.name ∉ g.map (·.name)) :
    t.mergeTree (mergeAll g f) = mergeAll g (t.mergeTree f) := by
  induction g generalizing f with
  | nil => rfl
  | cons u rest ih =>
    rw [List.map_cons, List.mem_cons, not_or] at hg
    have hswap : t.mergeTree (u.mergeTree f) = u.mergeTree (t.mergeTree f) := by
      obtain ⟨_, _, _⟩ := t
      obtain ⟨_, _, _⟩ := u
      rw [mergeTree, mergeTree]
      exact updateOrAppend_comm hg.1 hf
    rw [mergeAll, mergeAll, ih (mem_map_name_mergeTree hf) hg.2, hswap]

/-- Merging a tree after a forest is merging it into the forest before that comes in, when the same
is known of what is below the tree. -/
private theorem mergeTree_mergeAll_of_below
    (hbelow : ∀ f g, Unrepeated g →
      mergeAll children (mergeAll g f) = mergeAll (mergeAll children g) f)
    (hg : Unrepeated g) (f : List PreloadTree) :
    mergeTree ⟨association, name, children⟩ (mergeAll g f)
      = mergeAll (mergeTree ⟨association, name, children⟩ g) f := by
  induction g generalizing f with
  | nil => rfl
  | cons u rest ih =>
    obtain ⟨hu, hchildren, hrest⟩ := unrepeated_cons_iff.1 hg
    rw [mergeAll]
    by_cases hname : u.name = name
    · -- The tree goes into this one, and the trees after it have other aliases.
      obtain ⟨association', name', children'⟩ := u
      obtain rfl : name' = name := hname
      have htogether : mergeTree ⟨association, name', children⟩
          (mergeTree ⟨association', name', children'⟩ f)
          = mergeTree ⟨association', name', mergeAll children children'⟩ f := by
        rw [mergeTree, mergeTree, mergeTree, updateOrAppend_updateOrAppend]
        congr 1
        funext f'
        exact hbelow f' children' hchildren
      have hthere : name' ∈ (mergeTree ⟨association', name', children'⟩ f).map (·.name) :=
        name_mem_map_name_mergeTree ⟨association', name', children'⟩ f
      rw [mergeTree_mergeAll_comm (t := ⟨association, name', children⟩) hthere hu, htogether]
      simp only [mergeTree, updateOrAppend, if_pos, mergeAll]
    · have hmerge : mergeTree ⟨association, name, children⟩ (u :: rest)
          = u :: mergeTree ⟨association, name, children⟩ rest := by
        rw [mergeTree, updateOrAppend, if_neg hname, mergeTree]
      rw [hmerge, mergeAll, ih hrest]

mutual

private theorem mergeTree_mergeAll :
    ∀ (t : PreloadTree) (_ : Unrepeated t.children) (f g : List PreloadTree) (_ : Unrepeated g),
      t.mergeTree (mergeAll g f) = mergeAll (t.mergeTree g) f
  | ⟨_, _, children⟩, h, f, g, hg => by
    have hbelow : ∀ t ∈ children, Unrepeated t.children := fun t ht => h.of_mem ht
    exact mergeTree_mergeAll_of_below (mergeAll_mergeAll children hbelow) hg f

private theorem mergeAll_mergeAll :
    ∀ (trees : List PreloadTree) (_ : ∀ t ∈ trees, Unrepeated t.children)
      (f g : List PreloadTree) (_ : Unrepeated g),
      mergeAll trees (mergeAll g f) = mergeAll (mergeAll trees g) f
  | [], _, f, g, _ => by rw [mergeAll, mergeAll]
  | t :: rest, h, f, g, hg => by
    obtain ⟨ht, hrest⟩ := List.forall_mem_cons.1 h
    have htree : Unrepeated (t.mergeTree g) :=
      hg.merge_of_forall (List.forall_mem_singleton.2 ht)
    rw [mergeAll, mergeTree_mergeAll t ht f g hg, mergeAll_mergeAll rest hrest f _ htree, mergeAll]

end

/-- Merging is associative when the forests that come in have no repetitions. The forest that they
come into may have some. -/
theorem merge_assoc (f : List PreloadTree) (hg : Unrepeated g) (hh : Unrepeated h) :
    merge (merge f g) h = merge f (merge g h) :=
  mergeAll_mergeAll h (fun _ ht => hh.of_mem ht) f g hg

/-! ### The laws together -/

/-- Merging keeps the first forest in place and has the branches of both. On forests without
repetitions it is an ordered union that prefers what is on the left: it makes no repetitions, the
empty forest changes nothing on either side, merging again changes nothing, and it is
associative. -/
theorem merge_laws (f g : List PreloadTree) :
    (Keeps f (merge f g)
        ∧ ∀ p, p ∈ forestBranches (merge f g) ↔ p ∈ forestBranches f ∨ p ∈ forestBranches g)
      ∧ (Unrepeated f → Unrepeated g →
        Unrepeated (merge f g)
          ∧ merge f g = f.map (joined g) ++ g.filter (fun u => decide (u.name ∉ f.map (·.name)))
          ∧ merge f [] = f ∧ merge [] f = f
          ∧ merge (merge f g) g = merge f g
          ∧ ∀ h, Unrepeated h → merge (merge f g) h = merge f (merge g h)) := by
  refine ⟨⟨keeps_merge f g, fun p => mem_forestBranches_merge_iff⟩, fun hf hg => ?_⟩
  have hnil : merge [] f = f := merge_eq_append (by simpa using hf.names)
  have hagain : merge (merge f g) g = merge f g :=
    merge_merge_of_unrepeated (fun _ ht => hg.of_mem ht) f
  exact ⟨hf.merge hg, merge_eq_union hf.names hg.names, merge_nil f, hnil, hagain,
    fun h hh => merge_assoc f hg hh⟩

/-- The comments of posts with their authors. -/
def commentTrees : List PreloadTree :=
  [⟨"comments", Blog.commentsAlias, [leaf "author" Blog.authorAlias]⟩]

/-- The authors of posts, and the comments under another name, whose authors have comments. -/
def authorTrees : List PreloadTree :=
  [leaf "author" Blog.authorAlias,
    ⟨"answers", Blog.commentsAlias,
      [⟨"author", Blog.authorAlias, [leaf "comments" Blog.commentsAlias]⟩]⟩]

/-- The comments of authors come in below the name that the comments of posts had first, and the
authors of posts come last; merging the comments of posts once more, before or after, is the
same. -/
theorem merge_laws_comments :
    Unrepeated commentTrees ∧ Unrepeated authorTrees
      ∧ merge commentTrees authorTrees =
        [⟨"comments", Blog.commentsAlias,
            [⟨"author", Blog.authorAlias, [leaf "comments" Blog.commentsAlias]⟩]⟩,
          leaf "author" Blog.authorAlias]
      ∧ merge (merge commentTrees authorTrees) commentTrees
        = merge commentTrees (merge authorTrees commentTrees) := by
  have hcomments : Unrepeated commentTrees := by
    simp [commentTrees, leaf, unrepeated_cons_iff, unrepeated_nil]
  have hauthors : Unrepeated authorTrees := by
    have hne : Blog.authorAlias ≠ Blog.commentsAlias := by decide
    simp [authorTrees, leaf, unrepeated_cons_iff, unrepeated_nil, hne]
  obtain ⟨-, hlaws⟩ := merge_laws commentTrees authorTrees
  obtain ⟨-, -, -, -, -, hassoc⟩ := hlaws hcomments hauthors
  exact ⟨hcomments, hauthors, rfl, hassoc commentTrees hcomments⟩

end JoinGraph.PreloadTree
