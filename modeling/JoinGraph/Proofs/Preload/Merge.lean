import JoinGraph.Proofs.Mention

/-!
# Merging Preload Forests

A merge keeps the forest that it goes into in place (`keeps_merge`): the trees that were there stay
in front, in their order and under their names, and recursively so below each of them. It loses no
alias and adds those of the incoming forest (`names_merge_iff`). Facts of this kind, about a forest
before and after a merge, all go by one induction (`merge_induction`).

An incoming tree whose alias is not there is appended whole, and nothing inside it is merged with
anything. A merge therefore changes nothing exactly when each branch of the incoming forest is found
by going to the *first* sibling of each alias (`merge_eq_self_iff`), which the forest after a merge
need not satisfy. It does when no node of the incoming forest has two children under one alias
(`merge_merge_of_unrepeated`).
-/

namespace JoinGraph.PreloadTree

/-! ### Induction over a merge -/

/-- A tree whose alias is not there is appended. -/
theorem merge_singleton_of_not_mem {t : PreloadTree} {forest : List PreloadTree}
    (h : t.name ∉ forest.map (·.name)) : merge forest [t] = forest ++ [t] := by
  obtain ⟨association, name, children⟩ := t
  rw [merge, mergeAll, mergeAll, mergeTree]
  induction forest with
  | nil => rfl
  | cons u rest ih =>
    rw [List.map_cons, List.mem_cons, not_or] at h
    rw [updateOrAppend, if_neg (Ne.symm h.1), ih h.2, List.cons_append]

/-- A tree whose alias is there is merged into the first tree of the alias. -/
theorem merge_singleton_of_name_eq {t u : PreloadTree} {before after : List PreloadTree}
    (hname : u.name = t.name) (h : t.name ∉ before.map (·.name)) :
    merge (before ++ u :: after) [t]
      = before ++ { u with children := merge u.children t.children } :: after := by
  obtain ⟨association, name, children⟩ := t
  rw [merge, mergeAll, mergeAll, mergeTree]
  induction before with
  | nil => rw [List.nil_append, updateOrAppend, if_pos hname, merge, List.nil_append]
  | cons v rest ih =>
    rw [List.map_cons, List.mem_cons, not_or] at h
    rw [List.cons_append, updateOrAppend, if_neg (Ne.symm h.1), ih h.2, List.cons_append]

/-- A property of a forest, of the trees that come in and of the result passes from the parts of a
merge to the whole. -/
structure MergeRules (P : List PreloadTree → List PreloadTree → List PreloadTree → Prop) :
    Prop where
  nil : ∀ forest, P forest [] forest
  cons : ∀ {forest t rest}, P forest [t] (merge forest [t]) →
    P (merge forest [t]) rest (merge forest (t :: rest)) →
    P forest (t :: rest) (merge forest (t :: rest))
  append : ∀ {forest t}, t.name ∉ forest.map (·.name) → P forest [t] (forest ++ [t])
  update : ∀ {before u after t}, u.name = t.name → t.name ∉ before.map (·.name) →
    P u.children t.children (merge u.children t.children) →
    P (before ++ u :: after) [t]
      (before ++ { u with children := merge u.children t.children } :: after)

/-- A forest is split at the first tree of an alias that is there. -/
private theorem exists_first {name : Alias} {forest : List PreloadTree}
    (h : name ∈ forest.map (·.name)) :
    ∃ before u after, forest = before ++ u :: after ∧ u.name = name
      ∧ name ∉ before.map (·.name) := by
  induction forest with
  | nil => cases h
  | cons t rest ih =>
    by_cases hname : t.name = name
    · exact ⟨[], t, rest, rfl, hname, List.not_mem_nil⟩
    · obtain ⟨before, u, after, rfl, hu, hbefore⟩ :=
        ih ((List.mem_cons.1 h).resolve_left (Ne.symm hname))
      refine ⟨t :: before, u, after, rfl, hu, fun hmem => ?_⟩
      exact (List.mem_cons.1 hmem).elim (Ne.symm hname) hbefore

mutual

private theorem mergeTree_induction
    {P : List PreloadTree → List PreloadTree → List PreloadTree → Prop} (rules : MergeRules P) :
    ∀ (t : PreloadTree) (forest : List PreloadTree), P forest [t] (merge forest [t])
  | ⟨association, name, children⟩, forest => by
    by_cases hmem : name ∈ forest.map (·.name)
    · obtain ⟨before, u, after, rfl, hname, hbefore⟩ := exists_first hmem
      rw [merge_singleton_of_name_eq hname hbefore]
      exact rules.update hname hbefore (mergeAll_induction rules children u.children)
    · rw [merge_singleton_of_not_mem hmem]
      exact rules.append hmem

private theorem mergeAll_induction
    {P : List PreloadTree → List PreloadTree → List PreloadTree → Prop} (rules : MergeRules P) :
    ∀ incoming forest : List PreloadTree, P forest incoming (merge forest incoming)
  | [], forest => rules.nil forest
  | t :: rest, forest =>
    rules.cons (mergeTree_induction rules t forest)
      (mergeAll_induction rules rest (merge forest [t]))

end

/-- What passes from the parts to the whole holds of every merge. -/
theorem merge_induction {P : List PreloadTree → List PreloadTree → List PreloadTree → Prop}
    (rules : MergeRules P) (forest incoming : List PreloadTree) :
    P forest incoming (merge forest incoming) :=
  mergeAll_induction rules incoming forest

/-! ### What a merge keeps -/

/-- The second forest has the first one in place: its trees come first, in the same order and with
the same labels, and recursively so below each of them. -/
inductive Keeps : List PreloadTree → List PreloadTree → Prop where
  | nil (forest : List PreloadTree) : Keeps [] forest
  | cons {t u : PreloadTree} {f g : List PreloadTree} (association : u.association = t.association)
      (name : u.name = t.name) (children : Keeps t.children u.children) (rest : Keeps f g) :
      Keeps (t :: f) (u :: g)

mutual

private theorem keeps_refl_children : ∀ t : PreloadTree, Keeps t.children t.children
  | ⟨_, _, children⟩ => Keeps.refl children

theorem Keeps.refl : ∀ f : List PreloadTree, Keeps f f
  | [] => .nil []
  | t :: rest => .cons rfl rfl (keeps_refl_children t) (Keeps.refl rest)

end

theorem Keeps.trans {f g h : List PreloadTree} (hfg : Keeps f g) (hgh : Keeps g h) : Keeps f h := by
  induction hfg generalizing h with
  | nil _ => exact .nil h
  | cons association name _ _ ihchildren ihrest =>
    cases hgh with
    | cons association' name' children' rest' =>
      exact .cons (association'.trans association) (name'.trans name) (ihchildren children')
        (ihrest rest')

/-- Forests that keep each other are equal. -/
theorem Keeps.antisymm {f g : List PreloadTree} (hfg : Keeps f g) (hgf : Keeps g f) : f = g := by
  induction hfg with
  | nil g =>
    cases hgf
    rfl
  | @cons t u _ _ association name _ _ ihchildren ihrest =>
    cases hgf with
    | cons _ _ children' rest' =>
      obtain ⟨_, _, _⟩ := t
      obtain ⟨_, _, _⟩ := u
      dsimp only at association name ihchildren children'
      rw [association, name, ihchildren children', ihrest rest']

/-- What keeps a forest can stand behind the same trees. -/
theorem Keeps.append_left {f g : List PreloadTree} (h : Keeps f g) (before : List PreloadTree) :
    Keeps (before ++ f) (before ++ g) := by
  induction before with
  | nil => exact h
  | cons t rest ih => exact .cons rfl rfl (.refl t.children) ih

/-- A merge keeps the forest that it goes into in place. -/
theorem keeps_merge (forest incoming : List PreloadTree) :
    Keeps forest (merge forest incoming) := by
  have hrules : MergeRules fun forest _ result => Keeps forest result :=
    { nil := .refl
      cons := .trans
      append := by
        intro forest t _
        simpa using (Keeps.nil [t]).append_left forest
      update := by
        intro before u after t _ _ hchildren
        have hfirst : Keeps (u :: after)
            ({ u with children := merge u.children t.children } :: after) :=
          .cons rfl rfl hchildren (.refl after)
        exact hfirst.append_left before }
  exact merge_induction hrules forest incoming

/-! ### What a merge names -/

/-- A merge names what one of the two forests names. -/
theorem names_merge_iff {forest incoming : List PreloadTree} {a : Alias} :
    Names (merge forest incoming) a ↔ Names forest a ∨ Names incoming a := by
  have hrules : MergeRules fun forest incoming result =>
      Names result a ↔ Names forest a ∨ Names incoming a :=
    { nil := fun forest => (or_iff_left not_names_nil).symm
      cons := by
        intro forest t rest ht hrest
        rw [hrest, ht, names_cons_iff, names_cons_iff, or_iff_left not_names_nil, or_assoc,
          or_assoc]
      append := fun _ => names_append_iff
      update := by
        intro before u after t hname _ hchildren
        simp only [names_append_iff, names_cons_iff, hchildren, hname, not_names_nil, or_false]
        -- The children that come in stand between those of the tree and the other trees.
        grind }
  exact merge_induction hrules forest incoming

/-! ### When a merge changes nothing -/

/-- The first tree of a forest with a given alias. -/
def first? (forest : List PreloadTree) (a : Alias) : Option PreloadTree :=
  forest.find? fun t => decide (t.name = a)

/-- A path of aliases leads down a forest when it can be followed by going to the first sibling of
each alias. -/
def Leads : List PreloadTree → List Alias → Prop
  | _, [] => True
  | forest, a :: rest => ∃ t, first? forest a = some t ∧ Leads t.children rest

mutual

/-- The paths of aliases from a tree to its nodes. -/
def branches : PreloadTree → List (List Alias)
  | ⟨_, name, children⟩ => [name] :: (forestBranches children).map (name :: ·)

/-- The paths of aliases from the trees of a forest to their nodes. -/
def forestBranches : List PreloadTree → List (List Alias)
  | [] => []
  | tree :: rest => tree.branches ++ forestBranches rest

end

/-- Every branch of a forest leads down the other when its first tree is found there with its
branches below it, and the other trees are found as well. -/
theorem leads_branches_cons_iff {t : PreloadTree} {rest forest : List PreloadTree} :
    (∀ p ∈ forestBranches (t :: rest), Leads forest p) ↔
      (∃ u, first? forest t.name = some u ∧ ∀ p ∈ forestBranches t.children, Leads u.children p)
        ∧ ∀ p ∈ forestBranches rest, Leads forest p := by
  obtain ⟨association, name, children⟩ := t
  rw [forestBranches, branches]
  simp only [List.mem_append, List.mem_cons, List.mem_map, or_imp, forall_and, forall_eq,
    forall_exists_index, and_imp, forall_apply_eq_imp_iff₂]
  refine and_congr_left fun _ => Iff.intro ?_ ?_
  · rintro ⟨⟨u, hu, -⟩, hchildren⟩
    refine ⟨u, hu, fun p hp => ?_⟩
    -- Which tree is found does not depend on the branch.
    obtain ⟨u', hu', hp'⟩ := hchildren p hp
    rw [hu] at hu'
    rwa [Option.some.inj hu']
  · rintro ⟨u, hu, hchildren⟩
    exact ⟨⟨u, hu, trivial⟩, fun p hp => ⟨u, hu, hchildren p hp⟩⟩

/-- Updating the first tree of an alias changes nothing exactly when there is such a tree and the
update changes nothing below it. -/
private theorem updateOrAppend_eq_self_iff {association : String} {name : Alias}
    {children : List PreloadTree} {update : List PreloadTree → List PreloadTree}
    (forest : List PreloadTree) :
    updateOrAppend association name children update forest = forest ↔
      ∃ u, first? forest name = some u ∧ update u.children = u.children := by
  induction forest with
  | nil => simp [updateOrAppend, first?]
  | cons t rest ih =>
    rw [updateOrAppend, first?]
    split
    · rename_i hname
      rw [List.find?_cons_of_pos (by simpa using hname)]
      obtain ⟨_, _, _⟩ := t
      simp
    · rename_i hname
      rw [List.find?_cons_of_neg (by simpa using hname)]
      rw [first?] at ih
      simp only [List.cons.injEq, true_and, ih]

mutual

/-- Merging one tree changes nothing exactly when it is found with all its branches. -/
private theorem mergeTree_eq_self_iff :
    ∀ (t : PreloadTree) (forest : List PreloadTree), t.mergeTree forest = forest ↔
      ∃ u, first? forest t.name = some u ∧ ∀ p ∈ forestBranches t.children, Leads u.children p
  | ⟨association, name, children⟩, forest => by
    rw [mergeTree, updateOrAppend_eq_self_iff]
    simp only [mergeAll_eq_self_iff children]

/-- Merging trees one after the other changes nothing exactly when none of them changes anything. -/
private theorem mergeAll_eq_self_iff :
    ∀ trees forest : List PreloadTree, mergeAll trees forest = forest ↔
      ∀ p ∈ forestBranches trees, Leads forest p
  | [], forest => by simp [mergeAll, forestBranches]
  | t :: rest, forest => by
    rw [mergeAll, leads_branches_cons_iff, ← mergeTree_eq_self_iff t, ← mergeAll_eq_self_iff rest]
    constructor
    · intro h
      -- The forest only grows, so if it is the same in the end it was the same all along.
      have hrest : Keeps (t.mergeTree forest) forest := by
        have hkeeps := keeps_merge (t.mergeTree forest) rest
        rwa [merge, h] at hkeeps
      have hsame : t.mergeTree forest = forest := hrest.antisymm (keeps_merge forest [t])
      exact ⟨hsame, by rwa [hsame] at h⟩
    · rintro ⟨hsame, hrest⟩
      rw [hsame, hrest]

end

/-- A merge changes nothing exactly when every branch of the incoming forest leads down the forest
that it goes into. -/
theorem merge_eq_self_iff {forest incoming : List PreloadTree} :
    merge forest incoming = forest ↔ ∀ p ∈ forestBranches incoming, Leads forest p :=
  mergeAll_eq_self_iff incoming forest

/-! ### Merging twice -/

/-- At no level of the forest do two siblings have one alias. -/
inductive Unrepeated : List PreloadTree → Prop where
  | intro {forest : List PreloadTree} (names : (forest.map (·.name)).Nodup)
      (children : ∀ t ∈ forest, Unrepeated t.children) : Unrepeated forest

/-- The first tree of an alias stays the first, with what is below it. -/
theorem Keeps.first? {f g : List PreloadTree} (h : Keeps f g) {a : Alias} {t : PreloadTree}
    (ht : PreloadTree.first? f a = some t) :
    ∃ u, PreloadTree.first? g a = some u ∧ Keeps t.children u.children := by
  induction h with
  | nil _ => cases ht
  | @cons t' u' f g _ name children _ _ ihrest =>
    rw [PreloadTree.first?] at ht ⊢
    by_cases ha : t'.name = a
    · rw [List.find?_cons_of_pos (by simpa using ha)] at ht
      rw [List.find?_cons_of_pos (by simpa [name] using ha)]
      obtain rfl := Option.some.inj ht
      exact ⟨u', rfl, children⟩
    · rw [List.find?_cons_of_neg (by simpa using ha)] at ht
      rw [List.find?_cons_of_neg (by simpa [name] using ha)]
      exact ihrest ht

/-- What leads down a forest leads down every forest that keeps it. -/
theorem Keeps.leads {f g : List PreloadTree} (h : Keeps f g) {p : List Alias} (hp : Leads f p) :
    Leads g p := by
  induction p generalizing f g with
  | nil => trivial
  | cons a rest ih =>
    obtain ⟨t, ht, hrest⟩ := hp
    obtain ⟨u, hu, hchildren⟩ := h.first? ht
    exact ⟨u, hu, ih hchildren hrest⟩

/-- In a forest without repetitions every tree is the first of its alias. -/
private theorem first?_of_mem {forest : List PreloadTree} (h : (forest.map (·.name)).Nodup)
    {t : PreloadTree} (ht : t ∈ forest) : first? forest t.name = some t := by
  induction forest with
  | nil => cases ht
  | cons u rest ih =>
    rw [List.map_cons, List.nodup_cons] at h
    rw [first?]
    rcases List.mem_cons.1 ht with rfl | ht
    · rw [List.find?_cons_of_pos (by simp)]
    · have hne : u.name ≠ t.name := fun he => h.1 (he ▸ List.mem_map_of_mem ht)
      rw [List.find?_cons_of_neg (by simpa using hne)]
      exact ih h.2 ht

/-- Every branch of a forest leads down another when each tree is found there with the branches
below it. -/
private theorem leads_branches_of_forall {trees forest : List PreloadTree}
    (h : ∀ t ∈ trees, ∃ u, first? forest t.name = some u
      ∧ ∀ p ∈ forestBranches t.children, Leads u.children p) :
    ∀ p ∈ forestBranches trees, Leads forest p := by
  induction trees with
  | nil => simp [forestBranches]
  | cons t rest ih =>
    rw [leads_branches_cons_iff]
    exact ⟨h t List.mem_cons_self, ih fun u hu => h u (List.mem_cons_of_mem t hu)⟩

/-- A forest without repetitions leads down itself along each of its branches. -/
theorem Unrepeated.leads {forest : List PreloadTree} (h : Unrepeated forest) :
    ∀ p ∈ forestBranches forest, Leads forest p := by
  induction h with
  | intro names _ ih =>
    exact leads_branches_of_forall fun t ht => ⟨t, first?_of_mem names ht, ih t ht⟩

/-- After an update or an append, the first tree of the alias has below it the update of what was
there, or just what was appended. -/
private theorem first?_updateOrAppend (association : String) (name : Alias)
    (children : List PreloadTree) (update : List PreloadTree → List PreloadTree)
    (forest : List PreloadTree) :
    ∃ u, first? (updateOrAppend association name children update forest) name = some u
      ∧ (u.children = children ∨ ∃ f, u.children = update f) := by
  induction forest with
  | nil =>
    refine ⟨⟨association, name, children⟩, ?_, .inl rfl⟩
    simp [updateOrAppend, first?]
  | cons t rest ih =>
    rw [updateOrAppend]
    split
    · rename_i hname
      refine ⟨{ t with children := update t.children }, ?_, .inr ⟨t.children, rfl⟩⟩
      rw [first?, List.find?_cons_of_pos (by simpa using hname)]
    · rename_i hname
      obtain ⟨u, hu, hchildren⟩ := ih
      refine ⟨u, ?_, hchildren⟩
      rw [first?, List.find?_cons_of_neg (by simpa using hname)]
      exact hu

mutual

/-- After merging a tree without repetitions below it, all its branches are found. -/
private theorem leads_mergeTree :
    ∀ (t : PreloadTree) (_ : Unrepeated t.children) (forest : List PreloadTree),
      ∃ u, first? (t.mergeTree forest) t.name = some u
        ∧ ∀ p ∈ forestBranches t.children, Leads u.children p
  | ⟨association, name, children⟩, h, forest => by
    rw [mergeTree]
    obtain ⟨u, hu, hchildren⟩ :=
      first?_updateOrAppend association name children (mergeAll children) forest
    refine ⟨u, hu, ?_⟩
    rcases hchildren with heq | ⟨f, heq⟩
    · rw [heq]
      exact h.leads
    · rw [heq]
      cases h with
      | intro _ below => exact leads_mergeAll children below f

/-- After merging trees without repetitions below each, all their branches are found. -/
private theorem leads_mergeAll :
    ∀ (trees : List PreloadTree) (_ : ∀ t ∈ trees, Unrepeated t.children)
      (forest : List PreloadTree), ∀ p ∈ forestBranches trees, Leads (mergeAll trees forest) p
  | [], _, _ => by simp [forestBranches]
  | t :: rest, h, forest => by
    rw [mergeAll, leads_branches_cons_iff]
    constructor
    · -- What leads down the forest right after its merge still does when the others are merged.
      obtain ⟨u, hu, hbranches⟩ := leads_mergeTree t (h t List.mem_cons_self) forest
      obtain ⟨v, hv, hkeeps⟩ := (keeps_merge (t.mergeTree forest) rest).first? hu
      exact ⟨v, hv, fun p hp => hkeeps.leads (hbranches p hp)⟩
    · exact leads_mergeAll rest (fun u hu => h u (List.mem_cons_of_mem t hu)) (t.mergeTree forest)

end

/-- Merging a second time changes nothing when no node of the incoming forest has two children
under one alias. Its trees themselves may share aliases: they are merged one by one. -/
theorem merge_merge_of_unrepeated {incoming : List PreloadTree}
    (h : ∀ t ∈ incoming, Unrepeated t.children) (forest : List PreloadTree) :
    merge (merge forest incoming) incoming = merge forest incoming :=
  merge_eq_self_iff.2 (leads_mergeAll incoming h forest)

/-! ### Merging what is new -/

/-- Trees whose aliases are new and distinct are appended. -/
theorem merge_eq_append {forest incoming : List PreloadTree}
    (h : ((forest ++ incoming).map (·.name)).Nodup) :
    merge forest incoming = forest ++ incoming := by
  -- Each tree is appended, so the next one comes to the forest with all trees before it.
  induction incoming generalizing forest with
  | nil => rw [merge_nil, List.append_nil]
  | cons t rest ih =>
    have hnew : t.name ∉ forest.map (·.name) := by
      rw [List.map_append, List.nodup_append] at h
      exact fun hmem => h.2.2 _ hmem _ (List.mem_map_of_mem List.mem_cons_self) rfl
    have htree : merge forest [t] = forest ++ [t] := merge_singleton_of_not_mem hnew
    rw [List.append_cons] at h ⊢
    rw [merge_cons, htree, ih h]

theorem map_name_sublist_forestAliases (forest : List PreloadTree) :
    (forest.map (·.name)).Sublist (forestAliases forest) := by
  induction forest with
  | nil => exact .slnil
  | cons t rest ih =>
    obtain ⟨association, name, children⟩ := t
    rw [forestAliases, aliases, List.map_cons, List.cons_append]
    exact (ih.trans (List.sublist_append_right _ _)).cons_cons name

end JoinGraph.PreloadTree
